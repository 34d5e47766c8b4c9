import Mathlib
/-! Ways down along a relation. They all come to an end exactly when none of them comes back, as long as only finitely
many things lead anywhere; and a way that repeats nothing is never longer than the list of these things, so a bound
of that length is not reached. -/
namespace CellChain.Descent

open Relation (ReflTransGen TransGen)

variable {α : Type} {r : α → α → Prop}

def Founded (r : α → α → Prop) (a : α) : Prop := Acc (fun b a => r a b) a

theorem Founded.below {a b : α} (founded : Founded r a) (leads : ReflTransGen r a b) : Founded r b := by
  induction leads with
  | refl => exact founded
  | tail _ edge ih => exact ih.inv edge

theorem Founded.acyclic {a : α} (founded : Founded r a) : ¬ TransGen r a a := by
  induction founded with
  | intro a _ ih =>
    intro cycle
    obtain ⟨b, edge, back⟩ := TransGen.head'_iff.1 cycle
    exact ih b edge (TransGen.tail' back edge)

theorem foundedIff {names : List α} (sources : ∀ a b, r a b → a ∈ names) {a : α} :
    Founded r a ↔ ¬ ∃ b, ReflTransGen r a b ∧ TransGen r b b := by
  constructor
  · rintro founded ⟨b, leads, cycle⟩
    exact (founded.below leads).acyclic cycle
  · intro none
    by_contra endless
    obtain ⟨way, rfl, down⟩ := not_acc_iff_exists_descending_chain.1 endless
    have onward : ∀ i j, i < j → TransGen r (way i) (way j) := by
      intro i j less
      induction less with
      | refl => exact .single (down i)
      | step _ ih => exact ih.tail (down _)
    have back : ∀ i j, i < j → way i = way j → False := by
      intro i j less same
      refine none ⟨way i, ?_, same ▸ onward i j less⟩
      rcases Nat.eq_zero_or_pos i with rfl | positive
      · exact .refl
      · exact (onward 0 i positive).to_reflTransGen
    -- An endless way stays among the names, so it has to repeat one.
    have finite : Finite { n // n ∈ names } := (List.finite_toSet names).to_subtype
    obtain ⟨i, j, differ, same⟩ :=
      Finite.exists_ne_map_eq_of_infinite fun i => (⟨way i, sources _ _ (down i)⟩ : { n // n ∈ names })
    have equal : way i = way j := congrArg Subtype.val same
    rcases Nat.lt_or_gt_of_ne differ with less | more
    · exact back i j less equal
    · exact back j i more equal.symm

structure Way (names : List α) (n : Nat) (path : List α) : Prop where
  once : path.Nodup
  within : ∀ a ∈ path, a ∈ names
  room : names.length < n + path.length

namespace Way

variable {names path : List α} {n : Nat}

theorem start (names : List α) : Way names (names.length + 1) [] := ⟨List.nodup_nil, nofun, Nat.lt_succ_self _⟩

theorem full (way : Way names 0 path) : False := by
  have most := (List.subperm_of_subset way.once way.within).length_le
  have room := way.room
  omega

theorem cons (way : Way names (n + 1) path) {a : α} (new : a ∉ path) (listed : a ∈ names) :
    Way names n (a :: path) := by
  have room := way.room
  refine ⟨way.once.cons new, List.forall_mem_cons.2 ⟨listed, way.within⟩, ?_⟩
  rw [List.length_cons]
  omega

theorem push (way : Way names (n + 1) path) {a : α} (new : a ∉ path) (listed : a ∈ names) :
    Way names n (path ++ [a]) := by
  obtain ⟨once, within, room⟩ := way.cons new listed
  have same := List.perm_append_singleton a path
  exact ⟨same.nodup_iff.2 once, fun b inside => within b (same.mem_iff.1 inside), by rwa [same.length_eq]⟩

end Way

end CellChain.Descent
