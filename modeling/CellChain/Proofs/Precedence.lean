import Mathlib
import CellChain.Proofs.Ancestry
/-! When sequences can be merged. A name that stands before another in one of them must come before it in the result,
so nothing can be merged once some name would have to come before itself. This is the only obstacle: a merge that
finds no head to take has found such a name, as each head then stands behind another one. -/
namespace CellChain.Lineage

open Relation (TransGen)

def Before (sequences : List (List String)) (first second : String) : Prop :=
  ∃ s ∈ sequences, [first, second].Sublist s

/- Heads are taken until all that are left are blocked: each stands behind the head of another sequence, or of its
own. -/
inductive Sticks : List (List String) → Prop
  | here {sequences : List (List String)} (left : ∃ s ∈ sequences, s ≠ [])
      (blocked : ∀ s ∈ sequences, ∀ name, s.head? = some name → inTail name sequences = true) : Sticks sequences
  | take {sequences : List (List String)} {head : String} (found : nextHead? sequences = some head)
      (others : Sticks (sequences.map (dropHead head))) : Sticks sequences

theorem dropLess {name : String} {s : List String} (first : s.head? = some name) :
    (dropHead name s).length < s.length := by
  cases s with
  | nil => cases first
  | cons x rest =>
    cases first
    rw [dropHead, if_pos rfl]
    exact Nat.lt_succ_self _

theorem roundLess {sequences : List (List String)} {head : String} (found : nextHead? sequences = some head) :
    (sequences.map (dropHead head)).flatten.length < sequences.flatten.length := by
  obtain ⟨s, inside, first⟩ := (headTaken found).2.1
  rw [List.length_flatten, List.length_flatten, List.map_map]
  apply List.sum_lt_sum
  · intro t _
    exact (dropSublist head t).length_le
  · exact ⟨s, inside, dropLess first⟩

theorem blockedOfNone {sequences : List (List String)} (named : ∀ s ∈ sequences, "" ∉ s)
    (none : nextHead? sequences = none) :
    ∀ s ∈ sequences, ∀ name, s.head? = some name → inTail name sequences = true := by
  intro s inside name first
  by_contra free
  obtain ⟨head, found⟩ := takesFree named inside first (by simpa using free)
  rw [none] at found
  cases found

theorem mergesOrSticks {sequences : List (List String)} (named : ∀ s ∈ sequences, "" ∉ s) :
    (∃ order, Merges sequences order) ∨ Sticks sequences := by
  induction size : sequences.flatten.length using Nat.strong_induction_on generalizing sequences with
  | h n ih =>
    by_cases left : ∃ s ∈ sequences, s ≠ []
    · cases found : nextHead? sequences with
      | none => exact .inr (.here left (blockedOfNone named found))
      | some head =>
        have less := roundLess found
        rw [size] at less
        rcases ih _ less (namedDrop named head) rfl with ⟨rest, merged⟩ | stuck
        · exact .inl ⟨head :: rest, .take found merged⟩
        · exact .inr (.take found stuck)
    · have empty : ∀ s ∈ sequences, s = [] := fun s inside => by_contra fun some => left ⟨s, inside, some⟩
      exact .inl ⟨[], .done empty⟩

theorem headBefore {sequences : List (List String)} {name : String} (behind : inTail name sequences = true) :
    ∃ s ∈ sequences, ∃ head, s.head? = some head ∧ Before sequences head name := by
  obtain ⟨s, inside, member⟩ := List.any_eq_true.1 behind
  rw [List.contains_iff_mem] at member
  cases s with
  | nil => cases member
  | cons head rest =>
    have pair : [head, name].Sublist (head :: rest) := (List.singleton_sublist.2 member).cons_cons head
    exact ⟨head :: rest, inside, head, rfl, head :: rest, inside, pair⟩

theorem headsEndless {sequences : List (List String)}
    (blocked : ∀ s ∈ sequences, ∀ name, s.head? = some name → inTail name sequences = true) {name : String}
    (first : ∃ s ∈ sequences, s.head? = some name) : ¬ Descent.Founded (fun a b => Before sequences b a) name := by
  intro founded
  induction founded with
  | intro name _ ih =>
    obtain ⟨s, inside, head⟩ := first
    obtain ⟨t, other, earlier, start, pair⟩ := headBefore (blocked s inside name head)
    exact ih earlier pair ⟨t, other, start⟩

theorem Before.listed {sequences : List (List String)} {a b : String} (pair : Before sequences a b) :
    b ∈ sequences.flatten := by
  obtain ⟨s, inside, part⟩ := pair
  exact List.mem_flatten.2 ⟨s, inside, part.subset (by simp)⟩

theorem Before.ofDrop {sequences : List (List String)} {head a b : String}
    (pair : Before (sequences.map (dropHead head)) a b) : Before sequences a b := by
  obtain ⟨t, dropped, part⟩ := pair
  obtain ⟨s, inside, rfl⟩ := List.mem_map.1 dropped
  exact ⟨s, inside, part.trans (dropSublist head s)⟩

theorem Sticks.cycle {sequences : List (List String)} (stuck : Sticks sequences) :
    ∃ name, TransGen (Before sequences) name name := by
  induction stuck with
  | @here sequences left blocked =>
    obtain ⟨s, inside, some⟩ := left
    have first : s.head? = .some (s.head some) := List.head?_eq_some_head some
    -- Each blocked head has a head before it, so going back from head to head comes back to a name.
    have endless := headsEndless blocked ⟨s, inside, first⟩
    have sources : ∀ a b, Function.swap (Before sequences) a b → a ∈ sequences.flatten := fun a b pair => pair.listed
    rw [Descent.foundedIff sources, not_not] at endless
    obtain ⟨name, -, cycle⟩ := endless
    exact ⟨name, Relation.transGen_swap.1 cycle⟩
  | take _ _ ih =>
    obtain ⟨name, cycle⟩ := ih
    exact ⟨name, TransGen.mono (fun a b pair => pair.ofDrop) name name cycle⟩

theorem placeLess {order : List String} (once : order.Nodup) :
    order.Pairwise fun a b => order.idxOf a < order.idxOf b := by
  rw [List.pairwise_iff_getElem]
  intro i j low high less
  rw [once.idxOf_getElem, once.idxOf_getElem]
  exact less

theorem Kept.acyclic {sequences : List (List String)} {order : List String} (kept : Kept sequences order)
    (name : String) : ¬ TransGen (Before sequences) name name := by
  have placed : ∀ a b, TransGen (Before sequences) a b → order.idxOf a < order.idxOf b := by
    intro a b way
    have step : ∀ {c d}, Before sequences c d → order.idxOf c < order.idxOf d := by
      intro c d pair
      obtain ⟨s, inside, part⟩ := pair
      exact List.pairwise_iff_forall_sublist.1 (placeLess kept.once) (part.trans (kept.within s inside))
    induction way with
    | single pair => exact step pair
    | tail _ pair ih => exact ih.trans (step pair)
  intro cycle
  exact Nat.lt_irrefl _ (placed name name cycle)

theorem Merges.kept {sequences : List (List String)} {order : List String} (h : Merges sequences order) :
    Kept sequences order := ⟨h.nodup, h.keeps⟩

/- A merge comes to an end, with an order or stuck. It gives an order just when there is one at all, which is when no
name has to come before itself. The order has every sequence in it, each name once, and no other name. -/
theorem mergeExact {sequences : List (List String)} (named : ∀ s ∈ sequences, "" ∉ s) :
    ((∃ order, Merges sequences order ∧ merge sequences = some order) ∨
      (Sticks sequences ∧ merge sequences = none)) ∧
    ((∃ order, merge sequences = some order) ↔ ∃ order : List String, order.Nodup ∧ ∀ s ∈ sequences, s.Sublist order) ∧
    ((∃ order, merge sequences = some order) ↔ ¬∃ name, TransGen (Before sequences) name name) ∧
    ∀ order, merge sequences = some order → order.Nodup ∧ (∀ name, name ∈ order ↔ ∃ s ∈ sequences, name ∈ s) ∧
      ∀ s ∈ sequences, s.Sublist order := by
  have apart : Sticks sequences → ∀ order, ¬ Kept sequences order := by
    intro stuck order kept
    obtain ⟨name, cycle⟩ := stuck.cycle
    exact kept.acyclic name cycle
  have ends := mergesOrSticks named
  refine ⟨?_, ?_, ?_, ?_⟩
  · rcases ends with ⟨order, merged⟩ | stuck
    · exact .inl ⟨order, merged, mergeIff.2 merged⟩
    · refine .inr ⟨stuck, Option.eq_none_iff_forall_ne_some.2 fun order given => ?_⟩
      exact apart stuck order (mergeIff.1 given).kept
  · constructor
    · rintro ⟨order, given⟩
      exact ⟨order, (mergeIff.1 given).nodup, (mergeIff.1 given).keeps⟩
    · rintro ⟨order, once, within⟩
      rcases ends with ⟨merged, h⟩ | stuck
      · exact ⟨merged, mergeIff.2 h⟩
      · exact absurd ⟨once, within⟩ (apart stuck order)
  · constructor
    · rintro ⟨order, given⟩ ⟨name, cycle⟩
      exact (mergeIff.1 given).kept.acyclic name cycle
    · intro none
      rcases ends with ⟨merged, h⟩ | stuck
      · exact ⟨merged, mergeIff.2 h⟩
      · exact absurd stuck.cycle none
  · intro order given
    have merged := mergeIff.1 given
    refine ⟨merged.nodup, fun name => ⟨merged.only name, ?_⟩, merged.keeps⟩
    rintro ⟨s, inside, member⟩
    exact (merged.keeps s inside).subset member

theorem crossedSticks :
    (¬∃ order : List String, order.Nodup ∧ ∀ s ∈ [["Token", "Owned"], ["Vault", "Owned", "Token"]], s.Sublist order) ∧
    ∀ s ∈ [["Token", "Owned"], ["Vault", "Token", "Owned"]], s.Sublist ["Vault", "Token", "Owned"] := by
  refine ⟨?_, ?_⟩
  · rw [← (@mergeExact [["Token", "Owned"], ["Vault", "Owned", "Token"]] (by decide)).2.1]
    rintro ⟨order, given⟩
    cases given
  · exact ((mergeExact (by decide)).2.2.2 ["Vault", "Token", "Owned"] rfl).2.2

end CellChain.Lineage
