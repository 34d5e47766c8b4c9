import Mathlib
import CellChain.Proofs.FragmentCompletion
import CellChain.Proofs.LoadedTypes
import CellChain.Proofs.SignatureChecks
/-! The validator gates lowering. A contract that was loaded, and that the validator finds no error in, is lowered
without an abort for every target with room for its leaves, as long as no struct or tuple in it has more than 255
components; and each fragment does to the depth what it declares. -/
namespace CellChain

namespace Ty

mutual
def broadest : Ty → Nat
  | .mapping _ value => value.broadest
  | .array element => element.broadest
  | .struct _ _ types | .tuple types => max types.length (broadestAll types)
  | _ => 0

def broadestAll : List Ty → Nat
  | [] => 0
  | t :: rest => max t.broadest (broadestAll rest)
end

theorem broadestAllLe {types : List Ty} {n : Nat} : broadestAll types ≤ n ↔ ∀ t ∈ types, t.broadest ≤ n := by
  induction types with
  | nil => simp [broadestAll]
  | cons t rest ih => simp [broadestAll, ih]

/- What the codec needs of a type besides an encoding: it looks at the parts that a value holds in itself. -/
mutual
def Solid : Ty → Prop
  | .integer _ bits => 1 ≤ bits ∧ bits ≤ 256
  | .struct _ names types =>
    names.length = types.length ∧ Record.repeated? [] names = none ∧ types.length ≤ 255 ∧ SolidAll types
  | .tuple types => types.length ≤ 255 ∧ SolidAll types
  | _ => True

def SolidAll : List Ty → Prop
  | [] => True
  | t :: rest => t.Solid ∧ SolidAll rest
end

theorem solidAll {types : List Ty} : SolidAll types ↔ ∀ t ∈ types, t.Solid := by
  induction types with
  | nil => simp [SolidAll]
  | cons t rest ih => simp [SolidAll, ih]

mutual
theorem Sound.solid : (t : Ty) → t.Sound → t.broadest ≤ 255 → t.Solid
  | .integer .., sound, _ => by simpa only [Sound, Solid] using sound
  | .struct _ names types, sound, few => by
    simp only [Sound, broadest] at sound few
    simp only [Solid]
    exact ⟨sound.1, sound.2.1, by omega, SoundAll.solid types sound.2.2 (by omega)⟩
  | .tuple types, sound, few => by
    simp only [Sound, broadest] at sound few
    simp only [Solid]
    exact ⟨by omega, SoundAll.solid types sound (by omega)⟩
  | .bool, _, _ | .mapping .., _, _ | .array _, _, _ | .bytes _, _, _ | .named _, _, _ | .cell, _, _
  | .address, _, _ | .other _, _, _ => by simp only [Solid]

theorem SoundAll.solid : (types : List Ty) → SoundAll types → broadestAll types ≤ 255 → SolidAll types
  | [], _, _ => trivial
  | t :: rest, sound, few => by
    simp only [broadestAll] at few
    exact ⟨Sound.solid t sound.1 (by omega), SoundAll.solid rest sound.2 (by omega)⟩
end

theorem solidGroup {t : Ty} {types : List Ty} (group : t.parts? = some types) (solid : t.Solid) :
    types.length ≤ 255 ∧ SolidAll types := by
  cases t <;> cases group
  · exact solid.2.2
  · exact solid

theorem solidWidth {t : Ty} (solid : t.Solid) : t.WidthOk := by
  cases t <;> simp_all [Solid, WidthOk]

theorem solidNarrow : (∀ t : Ty, t.Solid → t.widest ≤ 255) ∧ ∀ types, SolidAll types → widestAll types ≤ 255 := by
  apply groupInduction
  · intro t single _
    cases t <;> cases single <;> simp [widest]
  · intro t types group ih solid
    obtain ⟨few, members⟩ := solidGroup group solid
    have inner := ih members
    rw [widestGroup group]
    omega
  · intro _
    simp [widestAll]
  · intro t rest one others solid
    have first := one solid.1
    have later := others solid.2
    rw [widestAll]
    omega

theorem solidRoomy {target : Target} (bits : 256 ≤ target.cellBits)
    (address : 0 < target.addressBits ∧ target.addressBits ≤ target.cellBits) (refs : 2 ≤ target.cellRefs) :
    (∀ t : Ty, t.Solid → Position.Roomy target.cell (t.sizes target)) ∧
    ∀ types, SolidAll types → Position.Roomy target.cell (sizesAll target types) := by
  apply groupInduction
  · intro t single solid size inside
    rw [sizesSingle single, Option.mem_toList] at inside
    have range := leafSizeRange (solidWidth solid) address.1 inside
    simp only [Target.cell]
    omega
  · intro t types group ih solid
    rw [sizesGroup group]
    exact ih (solidGroup group solid).2
  · intro _ size inside
    cases inside
  · intro t rest one others solid size inside
    rw [sizesAll, List.mem_append] at inside
    rcases inside with own | later
    · exact one solid.1 size own
    · exact others solid.2 size later

end Ty

structure Target.Ample (target : Target) : Prop where
  bits : 256 ≤ target.cellBits
  address : 0 < target.addressBits ∧ target.addressBits ≤ target.cellBits
  refs : 2 ≤ target.cellRefs

variable {target : Target}

theorem codableOfSolid (ample : target.Ample) {types : List Ty} (solid : ∀ t ∈ types, t.Solid)
    (encodable : Ty.firstUnencodable? types = none) : Codable target types := by
  have all := Ty.solidAll.2 solid
  refine ⟨encodable, ?_, (Ty.solidRoomy ample.bits ample.address ample.refs).2 types all⟩
  have narrow := Ty.solidNarrow.2 types all
  unfold Emit.maxTupleSize
  omega

namespace Lower

theorem completeAllLength {around : List (String × Ty)} {types : List Ty} :
    (completeAll around types).length = types.length := by
  induction types with
  | nil => rfl
  | cons t rest ih => simp [completeAll, ih]

mutual
theorem completeSolid {around : List (String × Ty)} (known : ∀ p ∈ around, p.2.Solid) :
    (t : Ty) → t.Solid → (complete around t).Solid
  | .named name, _ => by
    simp only [complete]
    cases found : around.lookup name with
    | none => simp only [Option.getD_none, Ty.Solid]
    | some t =>
      obtain ⟨before, after, listed, -⟩ := List.lookup_eq_some_iff.1 found
      exact known (name, t) (by simp [listed])
  | .struct _ names types, solid => by
    simp only [complete, Ty.Solid, completeAllLength] at solid ⊢
    exact ⟨solid.1, solid.2.1, solid.2.2.1, completeAllSolid known types solid.2.2.2⟩
  | .tuple types, solid => by
    simp only [complete, Ty.Solid, completeAllLength] at solid ⊢
    exact ⟨solid.1, completeAllSolid known types solid.2⟩
  | .integer .., solid | .bool, solid | .mapping .., solid | .array _, solid | .bytes _, solid | .cell, solid
  | .address, solid | .other _, solid => by simpa only [complete] using solid

theorem completeAllSolid {around : List (String × Ty)} (known : ∀ p ∈ around, p.2.Solid) :
    (types : List Ty) → Ty.SolidAll types → Ty.SolidAll (completeAll around types)
  | [], _ => trivial
  | t :: rest, solid => ⟨completeSolid known t solid.1, completeAllSolid known rest solid.2⟩
end

/- The structs that are found are solid, since those around them are when they are written out. -/
mutual
theorem collectSolid {around : List (String × Ty)} (known : ∀ p ∈ around, p.2.Solid) :
    (t : Ty) → t.Sound → t.broadest ≤ 255 → ∀ acc : List String × List Ty, (∀ s ∈ acc.2, s.Solid) →
      ∀ s ∈ (collect around t acc).2, s.Solid
  | .struct name names types, sound, few, (seen, found), before => by
    have whole := completeSolid known _ (Ty.Sound.solid _ sound few)
    simp only [Ty.Sound, Ty.broadest] at sound few
    unfold collect
    split
    · exact before
    · have wider : ∀ p ∈ (name, complete around (.struct name names types)) :: around, p.2.Solid :=
        List.forall_mem_cons.2 ⟨whole, known⟩
      have inner := collectAllSolid wider types sound.2.2 (by omega) (name :: seen, found) before
      exact List.forall_mem_append.2 ⟨inner, List.forall_mem_singleton.2 whole⟩
  | .tuple types, sound, few, acc, before => by
    simp only [Ty.Sound, Ty.broadest] at sound few
    simp only [collect]
    exact collectAllSolid known types sound (by omega) acc before
  | .mapping _ value, sound, few, acc, before => by
    simp only [Ty.Sound, Ty.broadest] at sound few
    simp only [collect]
    exact collectSolid known value sound few acc before
  | .array element, sound, few, acc, before => by
    simp only [Ty.Sound, Ty.broadest] at sound few
    simp only [collect]
    exact collectSolid known element sound few acc before
  | .integer .., _, _, _, before | .bool, _, _, _, before | .bytes _, _, _, _, before | .named _, _, _, _, before
  | .cell, _, _, _, before | .address, _, _, _, before | .other _, _, _, _, before => by
    simpa only [collect] using before

theorem collectAllSolid {around : List (String × Ty)} (known : ∀ p ∈ around, p.2.Solid) :
    (types : List Ty) → Ty.SoundAll types → Ty.broadestAll types ≤ 255 →
      ∀ acc : List String × List Ty, (∀ s ∈ acc.2, s.Solid) → ∀ s ∈ (collectAll around types acc).2, s.Solid
  | [], _, _, _, before => before
  | t :: rest, sound, few, acc, before => by
    simp only [Ty.broadestAll] at few
    have first := collectSolid known t sound.1 (by omega) acc before
    exact collectAllSolid known rest sound.2 (by omega) (collect around t acc) first
end

def exposed (u : SourceUnit) (c : Contract) : List Ty :=
  c.structs ++ ((c.functions.filter Function.isPublic).flatMap fun f => types f.params ++ types f.returns) ++
    (u.stateMembers c).map Prod.snd

theorem usedStructsSolid {u : SourceUnit} {c : Contract} (sound : ∀ t ∈ exposed u c, t.Sound)
    (few : ∀ t ∈ exposed u c, t.broadest ≤ 255) : ∀ s ∈ usedStructs u c, s.Solid :=
  collectAllSolid (by simp) _ (Ty.soundAll.2 sound) (Ty.broadestAllLe.2 few) ([], []) (by simp)

theorem helpfulOfSolid (ample : target.Ample) {name : String} {names : List String} {types : List Ty}
    (solid : Ty.Solid (.struct name names types)) (encodable : Encodable name names types) :
    Helpful target names types := by
  have members : Ty.firstUnencodable? types = none := by
    rw [← Ty.unencodableGroup (t := .struct name names types) rfl]
    simpa [Encodable] using encodable
  simp only [Ty.Solid] at solid
  refine ⟨solid.1, solid.2.1, ?_, codableOfSolid ample (Ty.solidAll.1 solid.2.2.2) members⟩
  unfold Emit.maxTupleSize
  omega

end Lower

namespace SourceUnit

theorem baseFirstMem {u : SourceUnit} {c b : Contract} (mem : c ∈ u.contracts) (inside : b ∈ u.baseFirst c) :
    b ∈ u.contracts := by
  unfold baseFirst at inside
  split at inside
  · rw [List.mem_singleton.1 inside]
    exact mem
  · rw [List.mem_reverse, List.mem_filterMap] at inside
    obtain ⟨name, -, found⟩ := inside
    exact List.mem_of_find?_eq_some found

theorem stateMemberMem {u : SourceUnit} {c : Contract} {m : String × Ty} (inside : m ∈ u.stateMembers c) :
    m ∈ stateHeader ∨ ∃ v ∈ (u.baseFirst c).flatMap Contract.state, v.type = m.2 := by
  unfold stateMembers at inside
  rcases List.mem_append.1 inside with header | field
  · exact .inl header
  · obtain ⟨b, found, inside⟩ := List.mem_flatMap.1 field
    obtain ⟨v, declared, rfl⟩ := List.mem_map.1 inside
    exact .inr ⟨v, List.mem_flatMap.2 ⟨b, found, declared⟩, rfl⟩

end SourceUnit

theorem headerEncodableSound : ∀ m ∈ stateHeader, m.2.unencodable? = none ∧ m.2.Sound := by
  simp [stateHeader, Ty.unencodable?, Ty.leafSize?, Ty.Sound]

theorem exposedTyped {P : Ty → Prop} {u : SourceUnit} (header : ∀ m ∈ stateHeader, P m.2)
    (typed : ∀ c ∈ u.contracts, c.Typed P) {c : Contract} (mem : c ∈ u.contracts) : ∀ t ∈ Lower.exposed u c, P t := by
  have own := typed c mem
  intro t inside
  unfold Lower.exposed at inside
  rcases List.mem_append.1 inside with first | field
  · rcases List.mem_append.1 first with struct | signature
    · exact own.structs t struct
    · obtain ⟨f, found, inside⟩ := List.mem_flatMap.1 signature
      have listed := own.functions f (List.mem_filter.1 found).1
      rw [Lower.types, Lower.types, ← List.map_append] at inside
      obtain ⟨v, declared, rfl⟩ := List.mem_map.1 inside
      exact listed v declared
  · obtain ⟨m, found, rfl⟩ := List.mem_map.1 field
    rcases SourceUnit.stateMemberMem found with inHeader | ⟨v, declared, same⟩
    · exact header m inHeader
    · obtain ⟨b, chained, stated⟩ := List.mem_flatMap.1 declared
      rw [← same]
      exact (typed b (SourceUnit.baseFirstMem mem chained)).state v stated

theorem exposedSound {u : SourceUnit} (sound : ∀ c ∈ u.contracts, c.Typed Ty.Sound) {c : Contract}
    (mem : c ∈ u.contracts) : ∀ t ∈ Lower.exposed u c, t.Sound :=
  exposedTyped (fun m inside => (headerEncodableSound m inside).2) sound mem

namespace Check

theorem stateVariablesMem {used : List String} {vs : List Variable} {v : Variable} (inside : v ∈ vs) {d : Diagnostic}
    (found : d ∈ encodable v) : d ∈ stateVariables used vs := by
  induction vs generalizing used with
  | nil => cases inside
  | cons w rest ih =>
    rw [stateVariables]
    rcases List.mem_cons.1 inside with rfl | later
    · exact List.mem_append_left _ (List.mem_append_right _ found)
    · exact List.mem_append_right _ (ih later)

theorem stateEncodable {settings : Settings} {u : SourceUnit} {c : Contract} (ended : (run settings u c).abort = none)
    (clean : (run settings u c).hasErrors = false) {v : Variable}
    (inside : v ∈ (u.baseFirst c).flatMap Contract.state) : v.type.unencodable? = none := by
  cases found : v.type.unencodable? with
  | none => rfl
  | some t =>
    have reported : ⟨v.place, .noEncoding t.text⟩ ∈ afterIntrinsics settings u c := by
      unfold afterIntrinsics
      refine List.mem_append_left _ (List.mem_append_left _ (List.mem_append_left _ ?_))
      exact stateVariablesMem inside (by simp [encodable, found])
    have listed : ⟨v.place, .noEncoding t.text⟩ ∈ (run settings u c).diagnostics := by
      rw [runDiagnostics, ended]
      exact List.mem_append_right _ (List.mem_append_right _ reported)
    exact absurd rfl (errorsOfReport clean listed)

end Check

namespace Lower

theorem signatureCodable {settings : Settings} {u : SourceUnit} {c : Contract} (ample : target.Ample)
    (solid : ∀ t ∈ exposed u c, t.Solid) (clean : (Check.run settings u c).hasErrors = false) {f : Function}
    (mem : f ∈ c.functions) (pub : f.isPublic = true) {vs : List Variable}
    (listed : ∀ v ∈ vs, v ∈ f.params ++ f.returns) : Codable target (types vs) := by
  apply codableOfSolid ample
  · intro t inside
    obtain ⟨v, found, rfl⟩ := List.mem_map.1 inside
    apply solid
    refine List.mem_append_left _ (List.mem_append_right _ (List.mem_flatMap.2 ⟨f, ?_, ?_⟩))
    · exact List.mem_filter.2 ⟨mem, pub⟩
    · rw [types, types, ← List.map_append]
      exact List.mem_map_of_mem (listed v found)
  · rw [Ty.firstUnencodableAll]
    intro t inside
    obtain ⟨v, found, rfl⟩ := List.mem_map.1 inside
    exact Check.parameterEncodable clean mem pub (listed v found)

theorem stateCodable {settings : Settings} {u : SourceUnit} {c : Contract} (ample : target.Ample)
    (solid : ∀ t ∈ exposed u c, t.Solid) (ended : (Check.run settings u c).abort = none)
    (clean : (Check.run settings u c).hasErrors = false) : Codable target ((u.stateMembers c).map Prod.snd) := by
  apply codableOfSolid ample
  · intro t inside
    exact solid t (List.mem_append_right _ inside)
  · rw [Ty.firstUnencodableAll]
    intro t inside
    obtain ⟨m, found, rfl⟩ := List.mem_map.1 inside
    rcases SourceUnit.stateMemberMem found with header | ⟨v, declared, same⟩
    · exact (headerEncodableSound m header).1
    · rw [← same]
      exact Check.stateEncodable ended clean declared

end Lower

theorem validatedContractLowers {decoder : Description.Decoder} {w : Workspace} {path : String} {u : SourceUnit}
    (loaded : Description.load decoder w path = .ok u) {c : Contract} (mem : c ∈ u.contracts) (ample : target.Ample)
    (few : ∀ t ∈ Lower.exposed u c, t.broadest ≤ 255) {settings : Settings}
    (ended : (Check.run settings u c).abort = none) (clean : (Check.run settings u c).hasErrors = false) :
    ∃ program, lower target u c = .ok program ∧ ∀ frag ∈ program.fragments, frag.Balanced := by
  have sound := exposedSound (Description.loadSound loaded) mem
  have solid : ∀ t ∈ Lower.exposed u c, t.Solid := fun t inside => (sound t inside).solid t (few t inside)
  have bits := ample.bits
  have room : 0 ≤ target.cellBits := by omega
  have head : Lower.functionIdBits ≤ target.cellBits := by
    unfold Lower.functionIdBits
    omega
  obtain ⟨functions, one, oneBalanced⟩ := Lower.functionsComplete head fun f inside pub =>
    ⟨Lower.signatureCodable ample solid clean inside pub fun v found => List.mem_append_left _ found,
      Lower.signatureCodable ample solid clean inside pub fun v found => List.mem_append_right _ found⟩
  have fields := Lower.stateCodable ample solid ended clean
  obtain ⟨load, two, twoBalanced⟩ := Lower.loadStateCompletes fields room
  obtain ⟨store, three, threeBalanced⟩ := Lower.storeStateCompletes fields room
  have found := Lower.usedStructsSolid sound few
  obtain ⟨structs, four, fourBalanced⟩ := Lower.structsComplete room fun name names types inside encodable =>
    Lower.helpfulOfSolid ample (found _ inside) encodable
  refine ⟨⟨c.name, functions ++ [load, store] ++ structs⟩, ?_, ?_⟩
  · unfold lower
    rw [one]
    simp only [two, three, four, bind, Except.bind]
  · intro frag inside
    simp only [List.mem_append, List.mem_cons, List.not_mem_nil, or_false] at inside
    rcases inside with (function | rfl | rfl) | struct
    · exact oneBalanced frag function
    · exact twoBalanced
    · exact threeBalanced
    · exact fourBalanced frag struct

def votingSources : Workspace :=
  ⟨"/vote", [("main", "contracts:
- \x7bname: Own, state: [\x7bname: by, type: address\x7d]\x7d
- name: Vote
  is: [Own]
  structs: [\x7bname: Mark, members: [\x7bname: of, type: 'mapping(uint8=>Mark)'\x7d]\x7d]
  functions: [\x7bname: cast, id: 1, params: [\x7bname: as, type: Mark\x7d]\x7d]
")]⟩

def Lower.passes (u : SourceUnit) (c : Contract) : Bool :=
  (exposed u c).all (·.broadest ≤ 255) && (Check.run {} u c).abort.isNone && !(Check.run {} u c).hasErrors

theorem votingContractLowers : ∃ u, Description.load Description.decode votingSources "main" = .ok u ∧
    ∃ c ∈ u.contracts, c.name = "Vote" ∧ c.linearized = ["Vote", "Own"] ∧
      ∃ program, lower {} u c = .ok program ∧ ∀ frag ∈ program.fragments, frag.Balanced := by
  have passed : (match Description.load Description.decode votingSources "main" with
      | .ok u => u.contracts.any fun c =>
        c.name == "Vote" && c.linearized == ["Vote", "Own"] && Lower.passes u c
      | .error _ => false) = true := by decide +kernel
  cases loaded : Description.load Description.decode votingSources "main" with
  | error e => simp [loaded] at passed
  | ok u =>
    simp only [loaded, List.any_eq_true, Bool.and_eq_true, beq_iff_eq, Lower.passes, List.all_eq_true,
      decide_eq_true_eq, Option.isNone_iff_eq_none, Bool.not_eq_true'] at passed
    obtain ⟨c, mem, ⟨named, chain⟩, ⟨few, ended⟩, clean⟩ := passed
    have ample : Target.Ample {} := ⟨by decide, by decide, by decide⟩
    exact ⟨u, rfl, c, mem, named, chain, validatedContractLowers loaded mem ample few ended clean⟩

end CellChain
