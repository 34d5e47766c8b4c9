import Mathlib
import CellChain.Proofs.CodecCompletion
/-! What the codec aborts for, and how its two directions agree. Values that have an encoding fail to be stored or
loaded for the room in a cell or the width of a tuple only. Where neither is exceeded, both directions open a cell
before the same leaves, and as many builders are folded as links are followed. -/
namespace CellChain

namespace Position

theorem Placed.unique {p q q' : Position} {marks marks' : List Bool} (one : p.Placed marks q) (done : q.done = true)
    (two : p.Placed marks' q') (done' : q'.done = true) : marks = marks' ∧ q = q' := by
  have same := placedAlike ⟨rfl, rfl, rfl, rfl⟩ one done two done'
  subst same
  refine ⟨rfl, ?_⟩
  clear done done'
  induction one with
  | nil p =>
    cases two
    rfl
  | cons first _ ih =>
    cases two with
    | cons second rest =>
      rw [first] at second
      cases second
      exact ih rest

end Position

namespace Emit

/- A leaf that does not fit an empty cell beside the link that is kept free before other leaves, or a struct or tuple
that is wider than any tuple. -/
inductive Limit (capacity : Capacity) (sizes : List (Int × Int)) (widest : Nat) : Abort → Prop where
  | cell {before more : List (Int × Int)} {size : Int × Int} (leaf : sizes = before ++ size :: more)
      (full : ¬(size.1 ≤ capacity.bits ∧ size.2 + Position.reserve more ≤ capacity.refs)) :
      Limit capacity sizes widest ⟨Position.construct, .overfull size.1 (size.2 + Position.reserve more)⟩
  | tuple {o : Opcode} {n : Nat} (packs : o = .tuple ∨ o = .untuple) (held : n ≤ widest) (wide : maxTupleSize < n) :
      Limit capacity sizes widest ⟨o.name, .tupleOperand n⟩

theorem Stops.limit {p : Position} {w : Nat} {why : Abort} (stops : Stops p w why)
    (refs : ∀ size ∈ p.sizes, 0 ≤ size.2 ∧ size.2 ≤ 1) : Limit p.capacity p.sizes w why := by
  cases stops with
  | @cell marks q size more _ placed left full =>
    obtain ⟨rfl, -, none⟩ := Position.nextFails left full
    have whole : p.sizes = p.sizes.take marks.length ++ size :: more := by
      rw [← left, placed.sizes, List.take_append_drop]
    have few := refs size (by rw [whole]; simp)
    have room := Position.reserveRange more
    have exact : intSum size.2 (Position.reserve more) = size.2 + Position.reserve more :=
      intSumExact (by omega) (by simp only [Text.largestInt]; omega)
    rw [exact, placed.capacity] at none
    rw [exact]
    exact .cell whole none
  | tuple packs held wide => exact .tuple packs held wide

end Emit

open Emit

end CellChain
