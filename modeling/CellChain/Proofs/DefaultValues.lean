import Mathlib
import CellChain.Proofs.Defaults
import CellChain.Proofs.SliceAcceptance
/-! Default values are values of their types, and they survive a cell. Where the zero address can be made, the code
for the default of a type pushes one value of that type. A record at its default that is written to a builder is read
back as the same tuple: the only slices in it are zero addresses, and these begin where their cells begin. -/
namespace CellChain

open Machine Emit

variable {target : Target}

namespace Ty

theorem initialTyped (makes : target.MakesAddress) :
    (∀ t : Ty, t.WidthsOk → t.unencodable? = none → HasType target t (t.initial target)) ∧
    ∀ types, WidthsOkAll types → firstUnencodable? types = none → HaveTypes target types (initials target types) := by
  apply groupInduction
  · intro t single widths encodable
    rw [widthsSingle single] at widths
    cases t with
    | struct | tuple => cases single
    | named | other => simp [unencodable?, leafSize?] at encodable
    | integer signed bits =>
      rw [initial]
      cases signed with
      | false => exact .unsigned widths.1 widths.2 (by simp [valueCount])
      | true => exact .signed widths.1 widths.2 (by simp [valueCount]) (by simp [valueCount])
    | bool =>
      rw [initial]
      exact .bool (.inl rfl)
    | mapping =>
      rw [initial]
      exact .mapping .none
    | array =>
      rw [initial]
      exact .array (by decide) .none
    | bytes =>
      rw [initial]
      exact .bytes .empty
    | cell =>
      rw [initial]
      exact .cell .empty
    | address =>
      obtain ⟨least, -⟩ := makes
      rw [initial]
      refine .address ?_ rfl
      simp only [Slice.bits, Slice.ofCell, Cell.bits, List.drop_zero, List.length_cons, List.length_replicate]
      omega
  · intro t types group ih widths encodable
    rw [widthsGroup group] at widths
    rw [unencodableGroup group] at encodable
    rw [initialGroup group]
    exact .ofMembers group (ih widths encodable)
  · intro _ _
    exact .nil
  · intro t rest one others widths encodable
    rw [firstUnencodableCons] at encodable
    exact .cons (one widths.1 encodable.1) (others widths.2 encodable.2)

theorem initialReread (target : Target) : (∀ t : Ty, (t.initial target).reread = t.initial target) ∧
    ∀ types, Value.rereadAll (initials target types) = initials target types := by
  apply groupInduction
  · intro t single
    cases t <;> cases single <;> rfl
  · intro t types group ih
    rw [initialGroup group, Value.reread, ih]
  · rfl
  · intro t rest one others
    rw [initials, Value.rereadAll, one, others]

theorem widestLeSlots : (∀ t : Ty, t.widest ≤ t.slots) ∧ ∀ types, widestAll types ≤ slotsAll types := by
  apply groupInduction
  · intro t single
    cases t <;> cases single <;> simp [widest]
  · intro t types group ih
    have count := lengthLeSlots types
    rw [widestGroup group, slotsGroup group]
    omega
  · rfl
  · intro t rest one others
    rw [widestAll, slotsAll]
    omega

end Ty

theorem Position.placedRoomy {p q : Position} {marks : List Bool} (placed : p.Placed marks q) (done : q.done = true)
    (counted : Counted p.bits p.refs p.sizes) (single : ∀ size ∈ p.sizes, size.2 ≤ 1) (refs : 2 ≤ p.capacity.refs) :
    Roomy p.capacity p.sizes := by
  induction placed with
  | nil p =>
    rw [doneSizes.1 done]
    exact fun _ inside => absurd inside List.not_mem_nil
  | @cons p middle q opened marks first _ ih =>
    obtain ⟨own, places⟩ := nextPlaces first
    obtain ⟨bits, -, -, after⟩ := places.exact counted
    have fits := places.bitsFit
    have low := counted.bitsLow
    rw [places.sizes, List.forall_mem_cons] at single
    rw [places.capacity] at ih fits
    rw [places.sizes]
    refine List.forall_mem_cons.2 ⟨⟨?_, by omega⟩, ih done after single.2 refs⟩
    split at bits <;> omega

theorem Ty.Counted.ofWidths {types : List Ty} (address : 0 < target.addressBits ∧ target.addressBits ≤ 267)
    (widths : WidthsOkAll types) (few : slotsAll types ≤ 254) : Counted target 0 types := by
  have leaves := (leavesLeSlots target).2 types
  refine .ofSlots ?_ few
  have most : bitsAll target types ≤ ((sizesAll target types).map Prod.fst).length • 267 := by
    refine List.sum_le_card_nsmul _ 267 fun n inside => ?_
    obtain ⟨size, found, rfl⟩ := List.mem_map.1 inside
    have range := (sizesRange address.1).2 types widths size found
    omega
  simp only [List.length_map, nsmul_eq_mul] at most
  simp only [Text.largestInt]
  omega

namespace Emit

def Pushes (target : Target) (x : Emit Unit) (v : Value) : Prop := ∀ e : Emitter, e.target = target → 0 ≤ e.depth →
  ∃ code, x e = .ok ((), e.write code (e.depth + 1)) ∧ ∀ rest, Leads target.cell code rest (v :: rest)

theorem Pushes.ofCompletes {x : Emit Unit} {v : Value}
    (completes : ∀ d : Int, 0 ≤ d → Completes target d x fun _ d' => d' = d + 1)
    (writes : Writes target x fun _ _ code _ => ∀ rest, Leads target.cell code rest (v :: rest)) :
    Pushes target x v := by
  intro e same low
  obtain ⟨_, code, _, ok, rfl, leads⟩ := (completes e.depth low).known writes same rfl
  exact ⟨code, ok, leads⟩

end Emit

namespace Record

/- A record that could be written has types that can be coded: its leaves were placed, and as many values as it spreads
into bound the width of each group in it. -/
theorem codableOfWritten {r : Record} (address : 0 < target.addressBits ∧ target.addressBits ≤ 267)
    (refs : 2 ≤ target.cellRefs) (widths : Ty.WidthsOkAll r.types) (few : Ty.slotsAll r.types ≤ 254) {e e' : Emitter}
    (same : e.target = target)
    (written : r.toBuilder e = .ok ((), e')) : Codable target r.types ∧ 0 ≤ target.cellBits := by
  obtain ⟨code, d, -, p, marks, begun, assembles⟩ := r.toBuilderAssembles e () e' same written
  obtain ⟨q, placed, done⟩ := assembles.placed
  obtain ⟨low, high, capacity, bits, links, sizes⟩ := Position.startOk begun
  obtain ⟨_, -, begun⟩ := okOfBind begun
  obtain ⟨leaves, listed, -⟩ := okOfBind begun
  have narrow := Ty.widestLeSlots.2 r.types
  have range := (Ty.sizesRange address.1).2 r.types widths
  have counted : Position.Counted p.bits p.refs p.sizes := by
    rw [bits, links, sizes]
    exact (Ty.Counted.ofWidths address widths few).sizes low fun size found =>
      ⟨(range size found).1, (range size found).2.2.1⟩
  have roomy := Position.placedRoomy placed done counted (fun size found => (range size (sizes ▸ found)).2.2.2)
    (by rw [capacity]; exact refs)
  rw [capacity, sizes] at roomy
  refine ⟨⟨(((Ty.leavesSucceed target).2 r.types).2 r.names).1 ⟨leaves, listed⟩, ?_, roomy⟩, high⟩
  unfold maxTupleSize
  omega

theorem defaultBuilds (fits : target.Fits) (r : Record) : Writes target (r.default true) fun _ _ code _ =>
    ∃ a b p marks, code = a ++ b ∧ Fills target [.tuple r.types] a ∧
      Position.start target 0 r.names r.types target.cell = .ok p ∧
      Assembles target r.types p marks (fun vs => [.tuple vs]) .builder b := by
  refine .bind (Q := fun _ _ code _ => code = []) (.depth fun _ => rfl) ?_
  rintro _ _ _ _ rfl
  refine .bind ((defaultsFill fits).2 r.types) fun _ _ a _ members => ?_
  refine .bind (tupleLeads target.cell r.types.length) fun _ _ b _ packed => ?_
  refine .bind r.toBuilderAssembles ?_
  rintro _ _ c _ ⟨p, marks, begun, assembles⟩
  refine .ensureDepth fun _ _ _ _ => ⟨a ++ b, c, p, marks, by simp, .group rfl members packed.2.2, begun, assembles⟩

theorem defaultBuilderCompletes {r : Record} {d : Int} (codable : Codable target r.types) (room : 0 ≤ target.cellBits)
    (few : (r.types.length : Int) ≤ maxTupleSize) (low : 0 ≤ d) :
    Completes target d (r.default true) fun _ d' => d' = d + 1 := by
  refine .depthThen (.bind ((defaultsComplete target).2 r.types d codable.encodable codable.narrow low) ?_)
  intro _ m pushed
  refine .bind (tupleCompletes (by omega) few (by omega)) ?_
  intro _ m' packed
  refine .bind (toBuilderCompletes codable room few (by omega)) ?_
  intro _ m'' converted
  exact .ensureDepth (by omega)

def defaultReread (r : Record) : Emit Unit := do
  r.default true
  endBuilder
  toSlice
  r.ofSlice

theorem defaultRereadCompletes {r : Record} {d : Int} (codable : Codable target r.types) (room : 0 ≤ target.cellBits)
    (few : (r.types.length : Int) ≤ maxTupleSize) (low : 0 ≤ d) :
    Completes target d r.defaultReread fun _ d' => d' = d + 1 := by
  refine .bind (defaultBuilderCompletes codable room few low) ?_
  intro _ m built
  refine .opThen rfl (by omega) (.opThen rfl (by omega) ?_)
  refine (ofSliceCompletes codable room few (by omega)).mono ?_
  intro _ d' read
  omega

theorem defaultRereadFills (fits : target.Fits) (makes : target.MakesAddress) (refs : 2 ≤ target.cellRefs) {r : Record}
    (typed : HaveTypes target r.types (Ty.initials target r.types)) (few : Ty.slotsAll r.types ≤ 254)
    (counted : Ty.Counted target 0 r.types) : Writes target r.defaultReread fun _ _ code _ => ∀ rest,
      Leads target.cell code rest (.tuple (Ty.initials target r.types) :: rest) := by
  refine .bind (defaultBuilds fits r) ?_
  rintro _ _ _ _ ⟨a, b, p, marks, rfl, filled, begun, assembles⟩
  refine .opThen (.opThen (r.ofSliceDisassembles.mono ?_))
  rintro _ _ c _ ⟨q, marks', begun', apart⟩ _ _ _ rest
  cases Except.ok.inj (begun.symm.trans begun')
  have pushed := filled.leads (fun _ => makes) rest
  have behind : Ty.Counted target p.bits r.types := by
    rw [(Position.startOk begun).2.2.2.1]
    exact counted
  have returned := tupleReturns refs assembles apart typed few behind rest
  rw [(Ty.initialReread target).2] at returned
  have whole := pushed.append returned
  simpa using whole

end Record

theorem defaultsHold (makes : target.MakesAddress) (room : target.addressBits ≤ target.cellBits)
    (refs : 2 ≤ target.cellRefs) :
    (∀ t : Ty, t.WidthsOk → t.unencodable? = none → (t.widest : Int) ≤ maxTupleSize →
      HasType target t (t.initial target) ∧ Pushes target (pushDefault t) (t.initial target)) ∧
    ∀ r : Record, Ty.WidthsOkAll r.types → Ty.slotsAll r.types ≤ 254 →
      (∃ e e' : Emitter, e.target = target ∧ r.toBuilder e = .ok ((), e')) →
        Pushes target (r.default false) (.tuple (Ty.initials target r.types)) ∧
        Pushes target r.defaultReread (.tuple (Ty.initials target r.types)) := by
  have fits : target.Fits := ⟨makes.1.trans room, room, by omega⟩
  constructor
  · intro t widths encodable narrow
    refine ⟨(Ty.initialTyped makes).1 t widths encodable, .ofCompletes (fun d => ?_) ?_⟩
    · exact (defaultsComplete target).1 t d encodable narrow
    · exact ((defaultsFill fits).1 t).mono fun _ _ _ _ filled => filled.leads fun _ => makes
  · rintro r widths few ⟨e, e', same, written⟩
    have address : 0 < target.addressBits ∧ target.addressBits ≤ 267 := ⟨by have := makes.1; omega, makes.2⟩
    obtain ⟨codable, bits⟩ := Record.codableOfWritten address refs widths few same written
    have count : (r.types.length : Int) ≤ maxTupleSize := by
      have := Ty.lengthLeSlots r.types
      unfold maxTupleSize
      omega
    have typed := (Ty.initialTyped makes).2 r.types widths codable.encodable
    constructor
    · refine .ofCompletes (fun d => Record.defaultCompletes codable count) ?_
      exact (Record.defaultFills fits r).mono fun _ _ _ _ filled => filled.leads fun _ => makes
    · exact .ofCompletes (fun d => Record.defaultRereadCompletes codable bits count)
        (Record.defaultRereadFills fits makes refs typed few (.ofWidths address widths few))

def parcel : Record :=
  ⟨"Parcel", ["sender", "receiver", "carrier", "owner", "size", "seals", "stops", "label", "papers"],
    [.address, .address, .address, .address, .struct "Size" ["grams", "offset", "fragile"] [.uint 32, .int 8, .bool],
      .mapping (.uint 8) (.other "function"), .array .bool, .bytes "string", .tuple [.cell, .tuple []]]⟩

def parcelType : Ty := .struct parcel.name parcel.names parcel.types

theorem parcelWritten : (parcel.toBuilder (.start {} 1)).toOption.isSome = true := by decide +kernel

theorem parcelDefaultHolds :
    (parcelType.WidthsOk ∧ parcelType.unencodable? = none ∧ (parcelType.widest : Int) ≤ maxTupleSize ∧
      HasType {} parcelType (parcelType.initial {}) ∧ Pushes {} (pushDefault parcelType) (parcelType.initial {})) ∧
    Ty.slotsAll parcel.types ≤ 254 ∧ (∃ e e' : Emitter, e.target = {} ∧ parcel.toBuilder e = .ok ((), e')) ∧
      Pushes {} (parcel.default false) (.tuple (Ty.initials {} parcel.types)) ∧
      Pushes {} parcel.defaultReread (.tuple (Ty.initials {} parcel.types)) := by
  have widths : Ty.WidthsOkAll parcel.types := by
    simp [parcel, Ty.uint, Ty.int, Ty.WidthsOkAll, Ty.WidthsOk, Ty.WidthOk]
  have grouped : parcelType.WidthsOk := by
    rw [Ty.widthsGroup rfl]
    exact widths
  obtain ⟨⟨⟨⟩, e'⟩, found⟩ := Option.isSome_iff_exists.1 parcelWritten
  have written : ∃ e e' : Emitter, e.target = {} ∧ parcel.toBuilder e = .ok ((), e') :=
    ⟨.start {} 1, e', rfl, okOfOption found⟩
  have holds := @defaultsHold {} (by decide) (by decide) (by decide)
  have encodable : parcelType.unencodable? = none := by decide +kernel
  have narrow : (parcelType.widest : Int) ≤ maxTupleSize := by decide +kernel
  have few : Ty.slotsAll parcel.types ≤ 254 := by decide +kernel
  exact ⟨⟨grouped, encodable, narrow, holds.1 parcelType grouped encodable narrow⟩, few, written,
    holds.2 parcel widths few written⟩

end CellChain
