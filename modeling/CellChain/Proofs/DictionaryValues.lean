import Mathlib
import CellChain.Proofs.ChainRoundTrip
import CellChain.Proofs.CodecCompletion
/-! Structs as dictionary values. The predicate that tells whether a struct can be one adds up the room of its
members; the codec also keeps a reference free in front of the last member, and makes tuples of at most 255
values. The codec is exact: it aborts when one of the three is missing, and only then. -/
namespace CellChain

namespace Ty

theorem singleOfMember {t : Ty} (plain : t.isAggregate = false) : t.parts? = none := by
  cases t <;> cases plain <;> rfl

theorem widestMembers {types : List Ty} (plain : ∀ t ∈ types, t.isAggregate = false) : widestAll types = 0 := by
  induction types with
  | nil => rfl
  | cons t rest ih =>
    have own : t.widest = 0 := by
      have single := plain t List.mem_cons_self
      cases t <;> cases single <;> rfl
    rw [widestAll, own, ih fun u inside => plain u (List.mem_cons_of_mem _ inside), Nat.max_self]

theorem encodableAlone {t : Ty} {types : List Ty} (group : t.parts? = some types) :
    firstUnencodable? [t] = firstUnencodable? types := by
  simp [firstUnencodable?, unencodableGroup group]

theorem sizesAlone {t : Ty} {types : List Ty} (group : t.parts? = some types) (target : Target) :
    sizesAll target [t] = sizesAll target types := by
  rw [sizesAll, sizesGroup group, sizesAll, List.append_nil]

theorem memberSizes {target : Target} {types : List Ty} (plain : ∀ t ∈ types, t.isAggregate = false)
    (encodable : firstUnencodable? types = none) :
    sizesAll target types = types.map fun t => (t.leafSize? target).getD (0, 0) := by
  induction types with
  | nil => rfl
  | cons t rest ih =>
    rw [firstUnencodableCons] at encodable
    have single := singleOfMember (plain t List.mem_cons_self)
    obtain ⟨size, found⟩ := (unencodableSingle single target).1 encodable.1
    rw [sizesAll, sizesSingle single, ih (fun u inside => plain u (List.mem_cons_of_mem _ inside)) encodable.2]
    simp [found]

theorem memberRanges {target : Target} {types : List Ty} (plain : ∀ t ∈ types, t.isAggregate = false)
    (encodable : firstUnencodable? types = none) (widths : ∀ t ∈ types, t.WidthOk) (address : 0 < target.addressBits) :
    ∀ size ∈ sizesAll target types,
      0 ≤ size.1 ∧ size.1 ≤ max 256 target.addressBits ∧ 0 ≤ size.2 ∧ size.2 ≤ 1 := by
  rw [memberSizes plain encodable]
  intro size inside
  obtain ⟨t, found, rfl⟩ := List.mem_map.1 inside
  obtain ⟨size, leaf⟩ :=
    (unencodableSingle (singleOfMember (plain t found)) target).1 (firstUnencodableAll.1 encodable t found)
  rw [leaf]
  exact leafSizeRange (widths t found) address leaf

theorem membersFitDictIff {target : Target} {key : Int} {types : List Ty} :
    membersFitDict target key types = true ↔ (∀ t ∈ types, t.isAggregate = false) ∧
      firstUnencodable? types = none ∧ key ≤ target.dictValueBits ∧
      ((sizesAll target types).map Prod.fst).foldl intSum key ≤ target.dictValueBits ∧
      ((sizesAll target types).map Prod.snd).foldl intSum 0 ≤ target.cellRefs := by
  have encodable := ((leavesSucceed target).2 types).2 []
  unfold membersFitDict fitsOneCell
  cases listed : listLeaves target [] types with
  | error fault =>
    have none : firstUnencodable? types ≠ none := by
      rw [ne_eq, ← encodable, listed]
      simp
    simp [none]
  | ok leaves =>
    have all : firstUnencodable? types = none := encodable.1 ⟨leaves, listed⟩
    have sizes := ((Position.leafSizes target).2 types).2 [] leaves listed
    have bits : target.dictValueBits = target.dictValue.bits := rfl
    have refs : target.cellRefs = target.dictValue.refs := rfl
    rw [← sizes, List.map_map, List.map_map, List.foldl_map, List.foldl_map, bits, refs]
    by_cases outside : target.dictValue.bits < key
    · simp [outside]
    · simp [all, outside, Int.not_lt.1 outside]

end Ty

theorem foldExact {sizes : List Int} {n : Int} (positive : ∀ m ∈ sizes, 0 ≤ m) (low : 0 ≤ n)
    (high : n + sizes.sum ≤ Text.largestInt) : sizes.foldl intSum n = n + sizes.sum := by
  induction sizes generalizing n with
  | nil => simp
  | cons m rest ih =>
    obtain ⟨own, others⟩ := List.forall_mem_cons.1 positive
    have later : 0 ≤ rest.sum := List.sum_nonneg others
    rw [List.sum_cons] at high ⊢
    rw [List.foldl_cons, intSumExact (by omega) (by omega), ih others (by omega) (by omega), Int.add_assoc]

namespace Emit

variable {α β : Type} {target : Target} {d : Int}

def Requires (condition : Prop) (x : Emit α) : Prop := ∀ e a e', x e = .ok (a, e') → condition

namespace Requires

theorem first {condition : Prop} {x : Emit α} {f : α → Emit β} (h : Requires condition x) :
    Requires condition (x >>= f) := by
  intro e b e' ok
  obtain ⟨a, middle, one, -⟩ := bindOk ok
  exact h e a middle one

theorem later {condition : Prop} {x : Emit α} {f : α → Emit β} (h : ∀ a, Requires condition (f a)) :
    Requires condition (x >>= f) := by
  intro e b e' ok
  obtain ⟨a, middle, -, two⟩ := bindOk ok
  exact h a middle b e' two

theorem check {condition : Prop} [Decidable condition] {construct : String} {cause : Abort.Cause} :
    Requires condition (Emit.check condition construct cause) := by
  intro e a e' ok
  unfold Emit.check at ok
  split at ok
  · assumption
  · cases ok

end Requires

theorem tupleOpRequires {immediate onStack : Opcode} {k : Int} :
    Requires (0 ≤ k ∧ k ≤ maxTupleSize) (tupleOp immediate onStack k) :=
  .first .check

theorem storeGroupRequires {t : Ty} {types : List Ty} (group : t.parts? = some types) (p : Position) :
    Requires (0 ≤ (types.length : Int) ∧ (types.length : Int) ≤ maxTupleSize) (storeValues [t] p) := by
  refine .later fun before => .later fun _ => .first ?_
  simp only [Store.values]
  rw [Store.valueGroup group]
  exact .first (.first (.later fun _ => .first tupleOpRequires))

theorem loadGroupRequires {t : Ty} {types : List Ty} (group : t.parts? = some types) (p : Position) :
    Requires (0 ≤ (types.length : Int) ∧ (types.length : Int) ≤ maxTupleSize) (loadValues [t] p) := by
  refine .later fun before => .later fun _ => .first ?_
  simp only [Load.values]
  rw [Load.valueGroup group]
  exact .first (.later fun _ => .first (.later fun _ => .first tupleOpRequires))

def LinkFree (target : Target) (types : List Ty) : Prop :=
  2 ≤ types.length → ((Ty.sizesAll target types.dropLast).map Prod.snd).sum < target.cellRefs

structure Entry (target : Target) (key : Int) (types : List Ty) (p : Position) : Prop where
  capacity : p.capacity = target.dictValue
  bits : p.bits = key
  refs : p.refs = 0
  cells : p.cells = 1
  sizes : p.sizes = Ty.sizesAll target types

theorem dictPositionCompletes {key : Int} {types : List Ty} (name : String) (names : List String)
    (fits : Ty.membersFitDict target key types = true) (low : 0 ≤ key) :
    Completes target d (dictPosition (.struct name names types) key) fun p d' => d' = d ∧ Entry target key types p := by
  obtain ⟨-, encodable, inside, -, -⟩ := Ty.membersFitDictIff.1 fits
  have group : Ty.parts? (.struct name names types) = some types := rfl
  obtain ⟨p, begun, cells⟩ := Position.startSucceeds target target.dictValue
    (Ty.positions [.struct name names types]) ⟨low, inside⟩ ((Ty.encodableAlone group).trans encodable)
  obtain ⟨-, -, capacity, bits, refs, sizes⟩ := Position.startOk begun
  have members := sizes.trans (Ty.sizesAlone group target)
  exact .targetThen (.checkThen fits (.lift begun ⟨rfl, capacity, bits, refs, cells, members⟩))

theorem dictPositionRequires {name : String} {names : List String} {types : List Ty} {key : Int} {p : Position}
    {e e' : Emitter} (ok : dictPosition (.struct name names types) key e = .ok (p, e')) :
    Ty.membersFitDict e.target key types = true := by
  obtain ⟨limits, middle, read, ok⟩ := bindOk ok
  cases read
  exact Requires.first .check _ _ _ ok

structure Enters (target : Target) (key : Int) (types : List Ty) : Prop where
  fits : Ty.membersFitDict target key types = true
  few : (types.length : Int) ≤ maxTupleSize
  stays : Position.Stays wrapped target.dictValue key 0 (Ty.sizesAll target types)

theorem entryStays {key : Int} {types : List Ty} {p : Position} (fits : Ty.membersFitDict target key types = true)
    (widths : ∀ t ∈ types, t.WidthOk) (address : 0 < target.addressBits)
    (machine : target.addressBits ≤ Text.largestInt ∧ target.dictValueBits ≤ Text.largestInt) (low : 0 ≤ key)
    (entry : Entry target key types p) :
    p.OneCell ↔ Position.Stays wrapped target.dictValue key 0 (Ty.sizesAll target types) := by
  obtain ⟨plain, encodable, inside, -, -⟩ := Ty.membersFitDictIff.1 fits
  have counts : p.Counts key 0 := ⟨by rw [entry.bits, wrappedExact low (by omega)], entry.refs⟩
  rw [Position.oneCellStays counts ?_, entry.capacity, entry.sizes]
  intro size found
  rw [entry.sizes] at found
  have range := Ty.memberRanges plain encodable widths address size found
  have small : 256 ≤ Text.largestInt ∧ 1 ≤ Text.largestInt := by decide
  exact ⟨wrappedExact range.1 (by omega), wrappedExact range.2.2.1 (by omega)⟩

theorem entersExact {name : String} {names : List String} {types : List Ty} {key : Int}
    {codec : Position → Emit Position}
    (low : 0 ≤ key) (widths : ∀ t ∈ types, t.WidthOk) (address : 0 < target.addressBits)
    (machine : target.addressBits ≤ Text.largestInt ∧ target.dictValueBits ≤ Text.largestInt)
    (narrow : ∀ p, Requires (0 ≤ (types.length : Int) ∧ (types.length : Int) ≤ maxTupleSize) (codec p))
    (ends : ∀ p, (types.length : Int) ≤ maxTupleSize → Ty.membersFitDict target key types = true →
      p.sizes = Ty.sizesAll target types → ∃ w : Nat, (w : Int) ≤ maxTupleSize ∧
        Ends d (codec p) (Stops p w) fun q _ _ => q.done = true ∧ ∃ marks, p.Placed marks q)
    {e : Emitter} (same : e.target = target) (here : e.depth = d) :
    (∃ e', (do
      let q ← codec (← dictPosition (.struct name names types) key)
      check (q.cells = 1) (Ty.text (.struct name names types)) (.spilled q.cells)) e = .ok ((), e')) ↔
      Enters target key types := by
  constructor
  · rintro ⟨e', ok⟩
    obtain ⟨p, e₁, positioned, ok⟩ := bindOk ok
    obtain ⟨q, e₂, moved, checked⟩ := bindOk ok
    have fits := dictPositionRequires positioned
    rw [same] at fits
    have few := (narrow p e₁ q e₂ moved).2
    have one : q.cells = 1 := Requires.check _ _ _ checked
    obtain ⟨_, code, d', again, -, stays, entry⟩ := dictPositionCompletes name names fits low e same here
    rw [positioned] at again
    cases again
    obtain ⟨w, -, ended⟩ := ends p few fits entry.sizes
    rcases ended (e.write code d') stays with ⟨_, _, _, again, -, done, marks, placed⟩ | ⟨why, failed, -⟩
    · rw [moved] at again
      cases again
      refine ⟨fits, few, (entryStays fits widths address machine low entry).1 ⟨marks, q, placed, done, ?_⟩⟩
      rw [one, entry.cells]
    · rw [moved] at failed
      cases failed
  · rintro ⟨fits, few, stays⟩
    have whole : Completes target d (do
        let q ← codec (← dictPosition (.struct name names types) key)
        check (q.cells = 1) (Ty.text (.struct name names types)) (.spilled q.cells)) fun _ _ => True := by
      refine .bind (dictPositionCompletes name names fits low) ?_
      rintro p _ ⟨rfl, entry⟩
      obtain ⟨marks, last, walked, all, single⟩ := (entryStays fits widths address machine low entry).2 stays
      obtain ⟨w, small, ended⟩ := ends p few fits entry.sizes
      refine .bind (ended.completes fun _ => Stops.absent walked all small) ?_
      rintro q m ⟨_, done, marks', placed⟩
      have cells : q.cells = 1 := by
        obtain rfl := Position.placedAlike ⟨rfl, rfl, rfl, rfl⟩ walked all placed done
        rw [placed.cells, ← walked.cells, single, entry.cells]
      exact (Completes.check cells).mono fun _ _ _ => trivial
    obtain ⟨_, code, d', ok, -⟩ := whole e same here
    exact ⟨_, ok⟩

theorem entersCounted {key : Int} {types : List Ty} (widths : ∀ t ∈ types, t.WidthOk) (address : 0 < target.addressBits)
    (links : 2 ≤ target.cellRefs) (low : 0 ≤ key) (counted : Ty.Counted target key types) :
    Enters target key types ↔
      Ty.membersFitDict target key types = true ∧ (types.length : Int) ≤ maxTupleSize ∧ LinkFree target types := by
  have exact (fits : Ty.membersFitDict target key types = true) :
      Position.Stays wrapped target.dictValue key 0 (Ty.sizesAll target types) ↔ LinkFree target types := by
    obtain ⟨plain, encodable, inside, bits, refs⟩ := Ty.membersFitDictIff.1 fits
    have ranges := Ty.memberRanges plain encodable widths address
    have positive : Position.Positive (Ty.sizesAll target types) :=
      fun size found => ⟨(ranges size found).1, (ranges size found).2.2.1⟩
    have whole := counted.sizes low positive
    have room : 0 ≤ target.dictValue.refs := by
      change 0 ≤ target.cellRefs
      omega
    have front : Ty.sizesAll target types.dropLast = (Ty.sizesAll target types).dropLast := by
      rw [Ty.memberSizes plain encodable, ← List.map_dropLast]
      refine Ty.memberSizes (fun t inside => plain t (List.dropLast_subset _ inside)) ?_
      rw [Ty.firstUnencodableAll] at encodable ⊢
      exact fun t inside => encodable t (List.dropLast_subset _ inside)
    have count : (Ty.sizesAll target types).length = types.length := by
      rw [Ty.memberSizes plain encodable, List.length_map]
    rw [foldExact (by simpa using fun n r found => (ranges (n, r) found).1) low whole.bits] at bits
    rw [foldExact (by simpa using fun r n found => (ranges (n, r) found).2.2.1) le_rfl (le_of_lt whole.refs),
      Int.zero_add] at refs
    rw [Position.staysCounted whole, Position.staysExact room inside positive, LinkFree, front, count]
    simp only [Target.dictValue, Int.le_sub_one_iff]
    exact ⟨fun all => all.2.2, fun free => ⟨bits, refs, free⟩⟩
  constructor
  · rintro ⟨fits, few, stays⟩
    exact ⟨fits, few, (exact fits).1 stays⟩
  · rintro ⟨fits, few, free⟩
    exact ⟨fits, few, (exact fits).2 free⟩

theorem memberTypes {name : String} {names : List String} {types : List Ty} {key : Int}
    (fits : Ty.membersFitDict target key types = true) (few : (types.length : Int) ≤ maxTupleSize) :
    Ty.firstUnencodable? [.struct name names types] = none ∧
      (Ty.widestAll [.struct name names types] : Int) ≤ maxTupleSize ∧
      Ty.sizesAll target [.struct name names types] = Ty.sizesAll target types := by
  obtain ⟨plain, encodable, -⟩ := Ty.membersFitDictIff.1 fits
  have group : Ty.parts? (.struct name names types) = some types := rfl
  refine ⟨(Ty.encodableAlone group).trans encodable, ?_, Ty.sizesAlone group target⟩
  rw [Ty.widestAll, Ty.widestGroup group, Ty.widestMembers plain, Ty.widestAll]
  omega

end Emit

/- A struct goes into a dictionary entry, and comes out of it, without an abort just when its members fit, it has at
most 255 of them, and each sum on the way fits the entry. While machine integers hold the sums, the last condition is
that the members before the last leave a reference free. -/
theorem dictionaryCodecExact {settings : Settings} (valid : settings.validate = .ok ())
    (machine : settings.vm.cellBits ≤ Text.largestInt) (name : String) (names : List String) {types : List Ty}
    (widths : ∀ t ∈ types, t.WidthOk) {key : Int} (low : 0 ≤ key) {e d : Emitter} (writer : e.target = settings.vm)
    (values : 2 ≤ e.depth) (reader : d.target = settings.vm) (slice : 1 ≤ d.depth) :
    ((∃ e', Emit.storeDictValue (.struct name names types) key e = .ok ((), e')) ↔
      Emit.Enters settings.vm key types) ∧
    ((∃ d', Emit.loadDictValue (.struct name names types) key d = .ok ((), d')) ↔
      Emit.Enters settings.vm key types) ∧
    (Ty.Counted settings.vm key types → (Emit.Enters settings.vm key types ↔
      Ty.membersFitDict settings.vm key types = true ∧ (types.length : Int) ≤ Emit.maxTupleSize ∧
        Emit.LinkFree settings.vm types)) := by
  obtain ⟨links, address, most, entry⟩ := Settings.validLimits valid
  have sized : settings.vm.addressBits ≤ Text.largestInt ∧ settings.vm.dictValueBits ≤ Text.largestInt := by omega
  refine ⟨?_, ?_, Emit.entersCounted widths address links low⟩
  · refine Emit.entersExact low widths address sized (Emit.storeGroupRequires rfl) ?_ writer rfl
    intro p few fits listed
    obtain ⟨encodable, narrow, sizes⟩ := Emit.memberTypes fits few
    refine ⟨_, narrow, (Emit.storeValuesEnd encodable (listed.trans sizes.symm) values).mono (fun _ => id) ?_⟩
    rintro q _ _ ⟨-, done, marks, placed, -⟩
    exact ⟨done, marks, placed⟩
  · refine Emit.entersExact low widths address sized (Emit.loadGroupRequires rfl) ?_ reader rfl
    intro p few fits listed
    obtain ⟨encodable, narrow, sizes⟩ := Emit.memberTypes fits few
    refine ⟨_, narrow, (Emit.loadValuesEnd encodable (listed.trans sizes.symm) slice).mono (fun _ => id) ?_⟩
    rintro q _ _ ⟨-, done, marks, placed, -⟩
    exact ⟨done, marks, placed⟩

def longEntries : Settings where
  vm :=
    { cellBits := 9223372036854775798, addressBits := 9223372036854775798, dictValueBits := 9223372036854775798 }

/- Four cells and a number fit an entry with a key of 32 bits by the predicate, but the codec refuses them. With
the number before the last cell it takes them. It refuses an address that fills the entry behind a key, too, and the
predicate does not when a number after it makes the sum negative. -/
theorem lastReferenceRefused :
    Ty.membersFitDict {} 32 [.cell, .cell, .cell, .cell, .uint 8] = true ∧
    (¬∃ e', Emit.storeDictValue (.struct "S" ["a", "b", "c", "d", "e"] [.cell, .cell, .cell, .cell, .uint 8]) 32
      (.start {} 2) = .ok ((), e')) ∧
    (∃ d', Emit.loadDictValue (.struct "S" ["a", "b", "c", "d", "e"] [.cell, .cell, .cell, .uint 8, .cell]) 32
      (.start {} 1) = .ok ((), d')) ∧
    Ty.membersFitDict longEntries.vm 8 [.address, .uint 8] = true ∧
    ¬∃ e', Emit.storeDictValue (.struct "S" ["a", "b"] [.address, .uint 8]) 8 (.start longEntries.vm 2) =
      .ok ((), e') := by
  have valid : Settings.validate {} = .ok () := rfl
  have refused : ∀ t ∈ [Ty.cell, .cell, .cell, .cell, .uint 8], t.WidthOk := by simp [Ty.WidthOk]
  have taken : ∀ t ∈ [Ty.cell, .cell, .cell, .uint 8, .cell], t.WidthOk := by simp [Ty.WidthOk]
  have low : (0 : Int) ≤ 32 := by decide
  have writer : (2 : Int) ≤ (Emitter.start {} 2).depth := by decide
  have reader : (1 : Int) ≤ (Emitter.start {} 1).depth := by decide
  refine ⟨by decide, ?_, ?_, by decide, ?_⟩
  · have codec := dictionaryCodecExact valid (by decide) "S" ["a", "b", "c", "d", "e"] refused low rfl writer rfl reader
    rw [codec.1, codec.2.2 ⟨by decide, by decide⟩]
    rintro ⟨-, -, free⟩
    exact absurd (free (by decide)) (by decide)
  · have codec := dictionaryCodecExact valid (by decide) "S" ["a", "b", "c", "d", "e"] taken low rfl writer rfl reader
    rw [codec.2.1, codec.2.2 ⟨by decide, by decide⟩]
    exact ⟨by decide, by decide, fun _ => by decide⟩
  · have wide : ∀ t ∈ [Ty.address, .uint 8], t.WidthOk := by simp [Ty.WidthOk]
    have long : longEntries.validate = .ok () := rfl
    have short : (0 : Int) ≤ 8 := by decide
    have codec := dictionaryCodecExact long (by decide) "S" ["a", "b"] wide short (e := .start longEntries.vm 2) rfl
      (by decide) (d := .start longEntries.vm 1) rfl (by decide)
    rw [codec.1]
    intro enters
    exact absurd (enters.stays [] (9223372036854775798, 0) [(8, 0)] rfl) (by decide)

end CellChain
