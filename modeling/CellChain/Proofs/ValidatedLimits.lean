import Mathlib
import CellChain.Proofs.Defaults
import CellChain.Proofs.DictionaryValues
import CellChain.Proofs.GatedLowering
/-! What validated limits are good for. Validation looks at each limit alone, and two faults get past it: a cell of
fewer than 256 bits has no room for the key at the head of every state, and an address of fewer than 11 or more
than 267 bits has no default. Everything else that the emitter asks of a target is seen to. -/
namespace CellChain

theorem Settings.validAmple {settings : Settings} (valid : settings.validate = .ok ())
    (bits : 256 ≤ settings.vm.cellBits) : settings.vm.Ample := by
  obtain ⟨refs, some, most, -⟩ := validLimits valid
  exact ⟨bits, ⟨some, most⟩, refs⟩

theorem Target.Ample.fits {target : Target} (ample : target.Ample) : target.Fits := by
  obtain ⟨bits, address, refs⟩ := ample
  exact ⟨by omega, address.2, by omega⟩

theorem Position.placedFirst {p q : Position} {marks : List Bool} (placed : p.Placed marks q) (done : q.done = true)
    {size : Int × Int} {more : List (Int × Int)} (listed : p.sizes = size :: more) (start : p.bits = 0) :
    size.1 ≤ p.capacity.bits := by
  cases placed with
  | nil =>
    rw [doneSizes, listed] at done
    cases done
  | @cons _ middle _ opened marks first rest =>
    obtain ⟨own, places⟩ := nextPlaces first
    have same := places.sizes
    rw [listed, List.cons.injEq] at same
    have fits := places.bitsFit
    rw [places.bits, places.capacity, ← same.1, start, ite_self, intSumZero] at fits
    exact fits

namespace Lower

variable {target : Target}

theorem loweredRoom {u : SourceUnit} {c : Contract} {program : Program} (ok : lower target u c = .ok program) :
    256 ≤ target.cellBits := by
  obtain ⟨_, load, _, _, -, loaded, -⟩ := lowerParts ok
  obtain ⟨p, marks, _, -, begun, apart⟩ := loadStateDisassembles loaded
  obtain ⟨q, placed, done⟩ := apart.placed
  obtain ⟨-, -, capacity, bits, -, sizes⟩ := Position.startOk begun
  have listed : ∃ more, p.sizes = (256, 0) :: more := by
    rw [sizes]
    simp [SourceUnit.stateMembers, stateHeader, Ty.sizesAll, Ty.sizes, Ty.leafSize?]
  obtain ⟨more, listed⟩ := listed
  have room := Position.placedFirst placed done listed bits
  rw [capacity] at room
  exact room

theorem functionsNoDefault {fs : List Function} {fragments : List Fragment} (ok : functions target fs = .ok fragments)
    {frag : Fragment} (mem : frag ∈ fragments) : frag.kind ≠ .structDefault := by
  obtain ⟨f, -, -, decoded | ⟨-, encoded⟩⟩ := functionsOnly ok mem
  · obtain ⟨code, -, made⟩ := okOfBind decoded
    cases made
    simp
  · obtain ⟨code, -, made⟩ := okOfBind encoded
    cases made
    simp

theorem stateNoDefault {members : List (String × Ty)} {load store : Fragment}
    (loaded : loadState target members = .ok load) (stored : storeState target members = .ok store) :
    load.kind ≠ .structDefault ∧ store.kind ≠ .structDefault := by
  obtain ⟨_, -, made⟩ := okOfBind loaded
  obtain ⟨_, -, made'⟩ := okOfBind stored
  cases made
  cases made'
  simp

theorem defaultFragmentFills (fits : target.Fits) {u : SourceUnit} {c : Contract} {program : Program}
    (ok : lower target u c = .ok program) {frag : Fragment} (mem : frag ∈ program.fragments)
    (default : frag.kind = .structDefault) : ∃ name names types, .struct name names types ∈ usedStructs u c ∧
      frag.name = name ++ "_default" ∧ Emit.Fills target [.tuple types] frag.code := by
  obtain ⟨functions, load, store, structs, one, two, three, four, parts⟩ := lowerParts ok
  rw [parts] at mem
  rcases List.mem_append.1 mem with other | struct
  · rcases List.mem_append.1 other with function | state
    · exact absurd default (functionsNoDefault one function)
    · obtain ⟨noLoad, noStore⟩ := stateNoDefault two three
      simp only [List.mem_cons, List.not_mem_nil, or_false] at state
      rcases state with rfl | rfl
      · exact absurd default noLoad
      · exact absurd default noStore
  · obtain ⟨name, names, types, own, used, -, made, inside⟩ := structsOnly four struct
    obtain ⟨code, _, _, emitted, -, -, rfl⟩ := helpersOk made
    simp only [List.mem_cons, List.not_mem_nil, or_false] at inside
    rcases inside with rfl | rfl | rfl
    · exact ⟨name, names, types, used, rfl, codeOfWrites (Record.defaultFills fits _) emitted⟩
    · cases default
    · cases default

theorem lowerOfParts {u : SourceUnit} {c : Contract} {fs structs : List Fragment} {load store : Fragment}
    (one : functions target c.functions = .ok fs) (two : loadState target (u.stateMembers c) = .ok load)
    (three : storeState target (u.stateMembers c) = .ok store)
    (four : Lower.structs target (usedStructs u c) = .ok structs) :
    lower target u c = .ok ⟨c.name, fs ++ [load, store] ++ structs⟩ := by
  simp only [lower, one, two, three, four, bind, Except.bind]

theorem ampleLowers {u : SourceUnit} (sound : ∀ c ∈ u.contracts, c.Typed Ty.Sound) {c : Contract}
    (mem : c ∈ u.contracts) (ample : target.Ample) (few : ∀ t ∈ exposed u c, t.broadest ≤ 255) {settings : Settings}
    (ended : (Check.run settings u c).abort = none) (clean : (Check.run settings u c).hasErrors = false) :
    ∃ program, lower target u c = .ok program := by
  have bits := ample.bits
  have room : 0 ≤ target.cellBits := by omega
  have head : functionIdBits ≤ target.cellBits := by
    unfold functionIdBits
    omega
  have solid : ∀ t ∈ exposed u c, t.Solid := fun t inside => (exposedSound sound mem t inside).solid t (few t inside)
  have fields := stateCodable ample solid ended clean
  have used := usedStructsSolid (exposedSound sound mem) few
  have listed {f : Function} (inside : f ∈ c.functions) (pub : f.isPublic = true) {vs : List Variable}
      (part : ∀ v ∈ vs, v ∈ f.params ++ f.returns) : Codable target (types vs) :=
    signatureCodable ample solid clean inside pub part
  obtain ⟨_, one, -⟩ := functionsComplete head fun f inside pub =>
    ⟨listed inside pub fun v found => List.mem_append_left _ found,
      listed inside pub fun v found => List.mem_append_right _ found⟩
  obtain ⟨_, two, -⟩ := loadStateCompletes fields room
  obtain ⟨_, three, -⟩ := storeStateCompletes fields room
  obtain ⟨_, four, -⟩ := structsComplete room fun _ _ _ inside encodable =>
    helpfulOfSolid ample (used _ inside) encodable
  exact ⟨_, lowerOfParts one two three four⟩

end Lower

/- A validated target takes every contract that the validator passes just when its cells have 256 bits, and then a
default fragment runs through just when no address in it lacks a default. -/
theorem validatedLimitsDecide {settings : Settings} (valid : settings.validate = .ok ())
    {decoder : Description.Decoder} {w : Workspace} {path : String} {u : SourceUnit}
    (loaded : Description.load decoder w path = .ok u) {c : Contract} (mem : c ∈ u.contracts)
    (few : ∀ t ∈ Lower.exposed u c, t.broadest ≤ 255) (ended : (Check.run settings u c).abort = none)
    (clean : (Check.run settings u c).hasErrors = false) :
    ((∃ program, lower settings.vm u c = .ok program) ↔ 256 ≤ settings.vm.cellBits) ∧
    ∀ program, lower settings.vm u c = .ok program → ∀ frag ∈ program.fragments, frag.kind = .structDefault →
      ∃ name names types, .struct name names types ∈ Lower.usedStructs u c ∧ frag.name = name ++ "_default" ∧
        ((Ty.holdAddress types = true → settings.vm.MakesAddress) → ∃ m,
          Machine.run frag.code (Machine.new settings.vm) = .ok () m ∧
            m.stack = [.tuple (Ty.initials settings.vm types)]) ∧
        (Ty.holdAddress types = true → ¬settings.vm.MakesAddress → ∃ m,
          Machine.run frag.code (Machine.new settings.vm) = .error settings.vm.addressHalt m) := by
  constructor
  · constructor
    · rintro ⟨program, ok⟩
      exact Lower.loweredRoom ok
    · intro bits
      exact Lower.ampleLowers (Description.loadSound loaded) mem (Settings.validAmple valid bits) few ended clean
  · intro program ok frag inside default
    have fits := (Settings.validAmple valid (Lower.loweredRoom ok)).fits
    obtain ⟨name, names, types, used, named, filled⟩ := Lower.defaultFragmentFills fits ok inside default
    have alone : Ty.holdAddress [.tuple types] = Ty.holdAddress types := by
      simp [Ty.holdAddress, Ty.holdsAddress]
    refine ⟨name, names, types, used, named, ?_, ?_⟩
    · intro makes
      obtain ⟨n, done⟩ := filled.leads (alone ▸ makes) [] .empty 0
      exact ⟨_, done, by simp [Ty.initials, Ty.initial]⟩
    · intro holds short
      exact filled.halts (alone.trans holds) short [] .empty 0

def safeSources : Workspace :=
  ⟨"/safe", [("main", "contracts:
- name: Safe
  structs: [\x7bname: Owner, members: [\x7bname: at, type: address\x7d]\x7d]
  state: [\x7bname: owner, type: Owner\x7d]
")]⟩

def wideAddress : Settings := { vm := { addressBits := 300 } }

def Lower.addressed (settings : Settings) (u : SourceUnit) (c : Contract) : Bool :=
  (exposed u c).all (·.broadest ≤ 255) && (Check.run settings u c).abort.isNone &&
    !(Check.run settings u c).hasErrors && (usedStructs u c).all Ty.holdsAddress &&
    match lower settings.vm u c with
    | .ok program => program.fragments.any (·.kind == .structDefault)
    | .error _ => false

theorem wideAddressBreaks :
    wideAddress.validate = .ok () ∧ ∃ u, Description.load Description.decode safeSources "main" = .ok u ∧
    ∃ c ∈ u.contracts, ∃ program, lower wideAddress.vm u c = .ok program ∧
      ∃ frag ∈ program.fragments, frag.kind = .structDefault ∧
        ∃ m, Machine.run frag.code (Machine.new wideAddress.vm) = .error .broken m := by
  have valid : wideAddress.validate = .ok () := by decide
  have passed : (match Description.load Description.decode safeSources "main" with
      | .ok u => u.contracts.any fun c => Lower.addressed wideAddress u c
      | .error _ => false) = true := by decide +kernel
  cases loaded : Description.load Description.decode safeSources "main" with
  | error e => simp [loaded] at passed
  | ok u =>
    simp only [loaded, List.any_eq_true, Bool.and_eq_true, Lower.addressed, List.all_eq_true, decide_eq_true_eq,
      Option.isNone_iff_eq_none, Bool.not_eq_true'] at passed
    obtain ⟨c, mem, ⟨⟨⟨few, ended⟩, clean⟩, held⟩, emitted⟩ := passed
    obtain ⟨-, decides⟩ := validatedLimitsDecide valid loaded mem few ended clean
    cases lowered : lower wideAddress.vm u c with
    | error a => simp [lowered] at emitted
    | ok program =>
      simp only [lowered, List.any_eq_true, beq_iff_eq] at emitted
      obtain ⟨frag, inside, default⟩ := emitted
      obtain ⟨name, names, types, used, -, -, halts⟩ := decides program lowered frag inside default
      have holds : Ty.holdAddress types = true := by simpa [Ty.holdsAddress] using held _ used
      exact ⟨valid, u, rfl, c, mem, program, lowered, frag, inside, default, halts holds (by decide)⟩

end CellChain
