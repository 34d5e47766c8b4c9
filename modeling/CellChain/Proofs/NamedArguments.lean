import Mathlib
import CellChain.Proofs.Construction
/-! Arguments by name, from any list of names. A record is built as soon as each member that takes an argument is
named and no mapping is. A member takes the first argument of its name, so a name that is repeated or that no member
has is not refused: the argument that goes with it is never asked for. -/
namespace CellChain

open Emit

namespace Record

variable {r : Record} {given : List String}

def Names (r : Record) (given : List String) : Prop := ∀ m ∈ r.pairs, m.1 ∈ given ↔ isMapping m.2 = false

def places (r : Record) (given : List String) : List Nat := (r.requests (some given)).map Prod.fst

theorem namesSlots (named : r.Names given) : r.slots (some given) = r.pairs.map (slotIn given) := by
  rw [slotsPaired, namedSlots named]

theorem namesPlaces (named : r.Names given) : r.places given = (askedNames r.pairs).map given.idxOf := by
  rw [places, requests, namesSlots named, askedNames]
  generalize r.pairs = members
  induction members with
  | nil => rfl
  | cons m rest ih => cases kind : isMapping m.2 <;> simpa [slotIn, kind] using ih

/- A name that is given takes the first of its places; none is left over when the names are those asked for. -/
theorem firstPlaces {asked : List String} (distinct : asked.Nodup) (inside : ∀ name ∈ asked, name ∈ given) :
    (asked.map given.idxOf).Perm (List.range given.length) ↔ given.Perm asked := by
  constructor
  · intro every
    have back := (every.map fun k => given.getD k "").symm
    have whole : (List.range given.length).map (fun k => given.getD k "") = given := by
      refine List.ext_getElem (by simp) fun k _ bound => ?_
      simp [List.getElem_range, List.getD_eq_getElem?_getD, bound]
    have same : (asked.map given.idxOf).map (fun k => given.getD k "") = asked := by
      rw [List.map_map]
      refine (List.map_congr_left fun name mem => ?_).trans (List.map_id asked)
      rw [Function.comp_apply, List.getD_eq_getElem?_getD, List.getElem?_idxOf (inside name mem)]
      rfl
    rwa [whole, same] at back
  · intro order
    have once : given.Nodup := order.nodup_iff.2 distinct
    have counted : given.map given.idxOf = List.range given.length := by
      refine List.ext_getElem (by simp) fun k left _ => ?_
      rw [List.getElem_map, List.getElem_range]
      exact once.idxOf_getElem k (by simpa using left)
    exact counted ▸ (order.map given.idxOf).symm

theorem placesIff (count : r.names.length = r.types.length) (distinct : r.names.Nodup) (named : r.Names given) :
    (r.places given).Perm (List.range given.length) ↔ given.Nodup ∧ ∀ name ∈ given, name ∈ r.names := by
  have once := askedDistinct count distinct
  have asked {name : String} (mem : name ∈ askedNames r.pairs) : name ∈ given ∧ name ∈ r.names := by
    obtain ⟨m, inside, rfl⟩ := List.mem_map.1 mem
    obtain ⟨pair, plain⟩ := List.mem_filter.1 inside
    exact ⟨(named m pair).2 (by simpa using plain), pairNames count ▸ List.mem_map_of_mem pair⟩
  rw [namesPlaces named, firstPlaces once fun name mem => (asked mem).1]
  constructor
  · intro order
    exact ⟨order.nodup_iff.2 once, fun name mem => (asked (order.mem_iff.1 mem)).2⟩
  · rintro ⟨single, members⟩
    refine (List.perm_ext_iff_of_nodup single once).2 fun name => ⟨fun mem => ?_, fun mem => (asked mem).1⟩
    obtain ⟨m, pair, rfl⟩ := List.mem_map.1 ((pairNames count).symm ▸ members name mem)
    exact (memAsked count distinct pair).2 ((named m pair).1 mem)

theorem namedRefused {name : String} {t : Ty} (kept : ∀ cause, namedSlot given name t ≠ .refused cause) :
    name ∈ given ↔ isMapping t = false := by
  unfold namedSlot at kept
  cases found : given.findIdx? (· == name) with
  | some k =>
    have inside : name ∈ given := by
      obtain ⟨bound, same, -⟩ := List.findIdx?_eq_some_iff_getElem.1 found
      exact beq_iff_eq.1 same ▸ List.getElem_mem bound
    cases kind : isMapping t with
    | false => simp [inside]
    | true => simp [found, kind] at kept
  | none =>
    have absent : name ∉ given := by
      intro inside
      simpa using List.findIdx?_eq_none_iff.1 found name inside
    cases kind : isMapping t with
    | false => simp [found, kind] at kept
    | true => simp [absent]

theorem fillAllKept {produce : Nat → Ty → Emit Unit} {slots : List Slot} {e e' : Emitter}
    (ok : r.fillAll produce slots e = .ok ((), e')) : ∀ s ∈ slots, ∀ cause, s ≠ .refused cause := by
  induction slots generalizing e with
  | nil => exact List.forall_mem_nil _
  | cons s rest ih =>
    obtain ⟨_, middle, first, later⟩ := bindOk ok
    refine List.forall_mem_cons.2 ⟨?_, ih later⟩
    rintro cause rfl
    cases first

end Record

namespace Emit

theorem tupleSize {n : Int} {e e' : Emitter} (ok : tuple n e = .ok ((), e')) : n ≤ maxTupleSize := by
  obtain ⟨_, _, checked, -⟩ := bindOk ok
  unfold check at checked
  split at checked
  · rename_i range
    exact range.2
  · cases checked

def AddsOne (x : Emit Unit) : Prop := ∀ e : Emitter, 0 ≤ e.depth → ∃ e', x e = .ok ((), e') ∧ e'.depth = e.depth + 1

theorem AddsOne.ofCompletes {x : Emit Unit}
    (h : ∀ (target : Target) (d : Int), 0 ≤ d → Completes target d x fun _ d' => d' = d + 1) : AddsOne x := by
  intro e low
  obtain ⟨_, code, _, ok, -, rfl⟩ := h e.target e.depth low e rfl rfl
  exact ⟨_, ok, rfl⟩

theorem addAll {α : Type} {f : α → Emit Unit} {items : List α} (each : ∀ a ∈ items, AddsOne (f a)) (e : Emitter)
    (low : 0 ≤ e.depth) : ∃ e', items.forM f e = .ok ((), e') ∧ e'.depth = e.depth + items.length := by
  induction items generalizing e with
  | nil => exact ⟨e, rfl, by simp⟩
  | cons a rest ih =>
    rw [List.forall_mem_cons] at each
    obtain ⟨middle, first, one⟩ := each.1 e low
    obtain ⟨e', later, others⟩ := ih each.2 middle (by omega)
    refine ⟨e', ?_, by rw [List.length_cons, Nat.cast_succ]; omega⟩
    change (f a >>= fun _ => rest.forM f) e = _
    rw [thenOk first, later]

end Emit

namespace Record

variable {r : Record} {given : List String}

theorem constructNames {produce : Nat → Ty → Emit Unit} {e e' : Emitter}
    (ok : r.construct (some given) produce e = .ok ((), e')) : r.Names given ∧ r.types.length ≤ 255 := by
  obtain ⟨_, _, -, ok⟩ := bindOk ok
  obtain ⟨_, _, filled, ok⟩ := bindOk ok
  obtain ⟨_, _, packed, -⟩ := bindOk ok
  constructor
  · intro m inside
    refine namedRefused (fillAllKept filled _ ?_)
    rw [slotsPaired]
    exact List.mem_map_of_mem inside
  · have size := tupleSize packed
    unfold maxTupleSize at size
    omega

theorem placeAddsOne (r : Record) (given : List String) {produce : Nat → Ty → Emit Unit}
    (one : ∀ k t, AddsOne (produce k t)) (m : String × Ty) : AddsOne (r.place given produce m) := by
  unfold place
  split
  · rename_i mapping
    exact .ofCompletes fun _ _ => emptyCompletes mapping
  · intro e low
    obtain ⟨e', ok, deeper⟩ := one (given.idxOf m.1) m.2 e low
    refine ⟨e', ?_, deeper⟩
    change (produce _ _ >>= fun _ => ensureDepth (e.depth + 1) _) e = _
    rw [thenOk ok, ensureDepth, if_pos deeper]

theorem buildCompletes {r : Record} {f : String × Ty → Emit Unit} (count : r.names.length = r.types.length)
    (few : r.types.length ≤ 255) (each : ∀ m ∈ r.pairs, AddsOne (f m)) : AddsOne (r.build f) := by
  intro e low
  have size : r.pairs.length = r.types.length := by rw [← pairTypes count, List.length_map]
  obtain ⟨full, filled, deeper⟩ := addAll each e low
  have completes : Completes full.target full.depth (tuple r.types.length) fun _ d => d = e.depth + 1 := by
    refine (tupleCompletes (by omega) (by unfold maxTupleSize; omega) (by omega)).mono ?_
    intro _ d packed
    omega
  obtain ⟨_, code, after, packed, -, same⟩ := completes full rfl rfl
  refine ⟨full.write code after, ?_, same⟩
  change (r.pairs.forM f >>= fun _ => tuple r.types.length >>= fun _ => ensureDepth (e.depth + 1) _) e = _
  rw [thenOk filled, thenOk packed, ensureDepth]
  exact if_pos same

end Record

theorem namedConstructionDecided {r : Record} (count : r.names.length = r.types.length) (distinct : r.names.Nodup)
    (given : List String) :
    (∀ produce e e', r.construct (some given) produce e = .ok ((), e') → r.Names given ∧ r.types.length ≤ 255) ∧
    (r.Names given → r.types.length ≤ 255 → ∀ produce, (∀ k t, AddsOne (produce k t)) →
      AddsOne (r.construct (some given) produce)) ∧
    (r.Names given → (∀ produce, r.construct (some given) produce = r.build (r.place given produce)) ∧
      r.places given = (Record.askedNames r.pairs).map given.idxOf ∧
      ((r.places given).Perm (List.range given.length) ↔ given.Nodup ∧ ∀ name ∈ given, name ∈ r.names)) := by
  refine ⟨fun _ _ _ => Record.constructNames, fun named few produce one => ?_, fun named => ⟨fun produce => ?_, ?_, ?_⟩⟩
  · rw [Record.slotsBuild (Record.namesSlots named)]
    exact Record.buildCompletes count few fun m _ => r.placeAddsOne given one m
  · exact Record.slotsBuild (Record.namesSlots named) produce
  · exact Record.namesPlaces named
  · exact Record.placesIff count distinct named

/- One name is given twice and another is no member's: the last two arguments are dropped. -/

def receipt : Record := ⟨"Receipt", ["a", "b", "c"], [.uint 8, .mapping (.uint 8) .bool, .uint 8]⟩

theorem surplusNamesIgnored : receipt.names.length = receipt.types.length ∧ receipt.names.Nodup ∧
    (∃ e, receipt.construct (some ["a", "c", "a", "d"]) (fun k _ => pushSmall k) (.start {} 0) = .ok ((), e) ∧
      e.depth = 1) ∧
    receipt.places ["a", "c", "a", "d"] = [0, 1] ∧ ¬(receipt.places ["a", "c", "a", "d"]).Perm (List.range 4) := by
  have count : receipt.names.length = receipt.types.length := rfl
  have distinct : receipt.names.Nodup := by decide
  have named : receipt.Names ["a", "c", "a", "d"] := by
    unfold Record.Names
    decide
  obtain ⟨-, accepts, asks⟩ := namedConstructionDecided count distinct ["a", "c", "a", "d"]
  obtain ⟨-, places, every⟩ := asks named
  refine ⟨count, distinct, ?_, places.trans (by decide), fun all => ?_⟩
  · exact accepts named (by decide) _ (fun k _ => .ofCompletes fun _ _ => .pushSmall) (.start {} 0) le_rfl
  · exact absurd (every.1 all).1 (by decide)

end CellChain
