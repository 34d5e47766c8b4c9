import Mathlib
import CellChain.Proofs.Chains
/-! Placing leaves without an abort. A position counts with machine integers, so what it has counted is the sum of all
leaves placed in the cell, wrapped once. While the sum is in their range, leaves stay in the current cell when their
bits and references fit it, and when all of them but the last leave one reference free, though it is used for nothing.
-/
namespace CellChain

def wrapped (x : Int) : Int := (x + 9223372036854775808) % 18446744073709551616 - 9223372036854775808

theorem intSumWrapped (a b : Int) : intSum (wrapped a) (wrapped b) = wrapped (a + b) := by
  simp only [intSum, wrapped, Text.largestInt, Text.smallestInt]
  split_ifs <;> omega

theorem wrappedExact {x : Int} (low : 0 ≤ x) (high : x ≤ Text.largestInt) : wrapped x = x := by
  simp only [wrapped, Text.largestInt] at high ⊢
  omega

namespace Position

def Roomy (capacity : Capacity) (sizes : List (Int × Int)) : Prop :=
  ∀ size ∈ sizes, size.1 ≤ capacity.bits ∧ size.2 + 1 ≤ capacity.refs

theorem consumeFails {p : Position} {bits refs : Int} {why : Abort} (failed : p.consume bits refs = .error why) :
    why = ⟨construct, .overfull bits refs⟩ ∧ ¬p.canFit bits refs ∧
      ¬(bits ≤ p.capacity.bits ∧ refs ≤ p.capacity.refs) := by
  unfold consume at failed
  split at failed
  · cases failed
  · rename_i outside
    simp only at failed
    split at failed
    · cases failed
    · rename_i full
      cases failed
      simp only [canFit, intSumZero] at full
      exact ⟨rfl, outside, full⟩

theorem nextFails {p : Position} {size : Int × Int} {more : List (Int × Int)} {why : Abort}
    (listed : p.sizes = size :: more) (failed : p.next = .error why) :
    why = ⟨construct, .overfull size.1 (intSum size.2 (reserve more))⟩ ∧
      ¬p.canFit size.1 (intSum size.2 (reserve more)) ∧
      ¬(size.1 ≤ p.capacity.bits ∧ intSum size.2 (reserve more) ≤ p.capacity.refs) := by
  unfold next at failed
  cases leaves : p.leaves with
  | nil => simp [sizes, leaves] at listed
  | cons leaf rest =>
    simp only [sizes, leaves, List.map_cons, List.cons.injEq] at listed
    obtain ⟨rfl, rfl⟩ := listed
    simp only [leaves] at failed
    cases taken : { p with leaves := rest }.consume leaf.bits (intSum leaf.refs (if rest.isEmpty then 0 else 1)) with
    | ok pair => simp only [taken, bind, Except.bind, reduceCtorEq] at failed
    | error fault =>
      simp only [taken, bind, Except.bind, Except.error.injEq] at failed
      have full := consumeFails taken
      rw [← failed, reserve, List.isEmpty_map]
      exact full

theorem nextCells {p q : Position} {opened : Bool} (ok : p.next = .ok (opened, q)) :
    q.cells = p.cells + opened.toInt := by
  unfold next at ok
  cases leaves : p.leaves with
  | nil => simp [leaves] at ok
  | cons leaf rest =>
    simp only [leaves] at ok
    obtain ⟨⟨flag, r⟩, taken, ok⟩ := okOfBind ok
    obtain ⟨rfl, rfl⟩ := Prod.mk.inj (Except.ok.inj ok)
    obtain ⟨-, rfl, -, -⟩ := consumeOk taken
    cases flag <;> simp

theorem Placed.capacity {p q : Position} {marks : List Bool} (placed : Placed p marks q) :
    q.capacity = p.capacity := by
  induction placed with
  | nil p => rfl
  | cons first _ ih =>
    obtain ⟨_, places⟩ := nextPlaces first
    rw [ih, places.capacity]

theorem Placed.cells {p q : Position} {marks : List Bool} (placed : Placed p marks q) :
    q.cells = p.cells + marks.count true := by
  induction placed with
  | nil p => simp
  | @cons p middle q opened marks first _ ih =>
    rw [ih, nextCells first]
    cases opened with
    | false => simp
    | true =>
      simp only [Bool.toInt_true, List.count_cons_self]
      omega

theorem Placed.goesOn {p q r : Position} {marks marks' : List Bool} (whole : Placed p marks q) (done : q.done = true)
    (part : Placed p marks' r) {why : Abort} (failed : r.next = .error why) : r.done = true := by
  induction part generalizing marks with
  | nil p =>
    cases whole with
    | nil => exact done
    | cons first _ =>
      rw [first] at failed
      cases failed
  | cons first _ ih =>
    cases whole with
    | nil =>
      obtain ⟨_, places⟩ := nextPlaces first
      rw [doneSizes, places.sizes] at done
      cases done
    | cons again rest =>
      rw [first] at again
      cases again
      exact ih rest failed

theorem Roomy.walks {p : Position} (roomy : Roomy p.capacity p.sizes) :
    ∃ marks q, p.Placed marks q ∧ q.done = true := by
  generalize listed : p.sizes = sizes at roomy
  induction sizes generalizing p with
  | nil => exact ⟨[], p, .nil p, doneSizes.2 listed⟩
  | cons size more ih =>
    cases step : p.next with
    | error why =>
      obtain ⟨-, -, full⟩ := nextFails listed step
      obtain ⟨bits, refs⟩ := roomy size List.mem_cons_self
      have room := reserveRange more
      have least : intSum size.2 (reserve more) ≤ size.2 + reserve more := by
        unfold intSum
        split_ifs <;> omega
      exact absurd ⟨bits, by omega⟩ full
    | ok pair =>
      obtain ⟨opened, q⟩ := pair
      obtain ⟨_, places⟩ := nextPlaces step
      have sizes := places.sizes
      rw [listed, List.cons.injEq] at sizes
      have later : Roomy q.capacity more := by
        rw [places.capacity]
        exact fun s inside => roomy s (List.mem_cons_of_mem _ inside)
      obtain ⟨marks, last, placed, done⟩ := ih sizes.2.symm later
      exact ⟨opened :: marks, last, .cons step placed, done⟩

def Fits (count : Int → Int) (capacity : Capacity) (bits refs : Int) (size : Int × Int) (more : List (Int × Int)) :
    Prop :=
  count (bits + size.1) ≤ capacity.bits ∧ count (refs + size.2 + reserve more) ≤ capacity.refs

instance {count : Int → Int} {capacity : Capacity} {bits refs : Int} {size : Int × Int} {more : List (Int × Int)} :
    Decidable (Fits count capacity bits refs size more) := by
  unfold Fits; infer_instance

structure Counts (p : Position) (bits refs : Int) : Prop where
  bits : p.bits = wrapped bits
  refs : p.refs = wrapped refs

def Countable (size : Int × Int) : Prop := wrapped size.1 = size.1 ∧ wrapped size.2 = size.2

namespace Counts

variable {p q : Position} {bits refs : Int} {size : Int × Int} {more : List (Int × Int)}

theorem reserved (refs : Int) (countable : Countable size) (more : List (Int × Int)) :
    intSum (wrapped refs) (intSum size.2 (reserve more)) = wrapped (refs + size.2 + reserve more) := by
  have room := reserveRange more
  have link : wrapped (reserve more) = reserve more := wrappedExact room.1 (by simp only [Text.largestInt]; omega)
  rw [← countable.2, ← link, intSumWrapped, intSumWrapped, countable.2, link, Int.add_assoc]

theorem fits (counts : p.Counts bits refs) (countable : Countable size) :
    p.canFit size.1 (intSum size.2 (reserve more)) ↔ Fits wrapped p.capacity bits refs size more := by
  rw [canFit, counts.bits, counts.refs, reserved refs countable more, ← countable.1, intSumWrapped]
  rfl

theorem next {opened : Bool} (counts : p.Counts bits refs) (places : p.Places opened size q)
    (countable : Countable size) :
    q.Counts ((if opened then 0 else bits) + size.1) ((if opened then 0 else refs) + size.2) ∧
      (opened = true ↔ ¬Fits wrapped p.capacity bits refs size q.sizes) ∧
      Fits wrapped p.capacity (if opened then 0 else bits) (if opened then 0 else refs) size q.sizes := by
  have bitsBefore : (if opened then 0 else p.bits) = wrapped (if opened then 0 else bits) := by
    rw [counts.bits, apply_ite wrapped]
    rfl
  have refsBefore : (if opened then 0 else p.refs) = wrapped (if opened then 0 else refs) := by
    rw [counts.refs, apply_ite wrapped]
    rfl
  have bitsAfter := places.bits
  have refsAfter := places.refs
  have bitsFit := places.bitsFit
  have refsFit := places.refsFit
  rw [bitsBefore, ← countable.1, intSumWrapped] at bitsAfter
  rw [refsBefore, reserved _ countable, places.capacity] at refsFit
  rw [bitsAfter, places.capacity] at bitsFit
  have room := reserveRange q.sizes
  have back : wrapped (-reserve q.sizes) = -reserve q.sizes := by
    unfold wrapped
    omega
  rw [refsBefore, reserved _ countable, ← back, intSumWrapped, Int.add_neg_cancel_right] at refsAfter
  exact ⟨⟨bitsAfter, refsAfter⟩, by rw [places.choice, counts.fits countable], bitsFit, refsFit⟩

end Counts

def Stays (count : Int → Int) (capacity : Capacity) (bits refs : Int) (sizes : List (Int × Int)) : Prop :=
  ∀ before size after, sizes = before ++ size :: after →
    Fits count capacity (bits + (before.map Prod.fst).sum) (refs + (before.map Prod.snd).sum) size after

theorem staysCons {count : Int → Int} {capacity : Capacity} {bits refs : Int} {size : Int × Int}
    {more : List (Int × Int)} : Stays count capacity bits refs (size :: more) ↔
      Fits count capacity bits refs size more ∧ Stays count capacity (bits + size.1) (refs + size.2) more := by
  constructor
  · intro stays
    refine ⟨by simpa using stays [] size more rfl, ?_⟩
    rintro before last after rfl
    simpa [Int.add_assoc] using stays (size :: before) last after rfl
  · rintro ⟨fits, stays⟩ before last after listed
    cases before with
    | nil =>
      cases listed
      simpa using fits
    | cons first before =>
      cases listed
      simpa [Int.add_assoc] using stays before last after rfl

def OneCell (p : Position) : Prop := ∃ marks q, p.Placed marks q ∧ q.done = true ∧ q.cells = p.cells

theorem oneCellStays {p : Position} {bits refs : Int} (counts : p.Counts bits refs)
    (countable : ∀ size ∈ p.sizes, Countable size) : p.OneCell ↔ Stays wrapped p.capacity bits refs p.sizes := by
  generalize listed : p.sizes = sizes at *
  induction sizes generalizing p bits refs with
  | nil =>
    refine ⟨fun _ before size after parts => ?_, fun _ => ⟨[], p, .nil p, doneSizes.2 listed, rfl⟩⟩
    simp at parts
  | cons size more ih =>
    obtain ⟨own, later⟩ := List.forall_mem_cons.1 countable
    rw [staysCons]
    -- Both sides tell that the first leaf stays, and then go on from the same position.
    have walks {q : Position} (step : p.next = .ok (false, q)) :
        q.OneCell ↔ Stays wrapped p.capacity (bits + size.1) (refs + size.2) more := by
      obtain ⟨_, places⟩ := nextPlaces step
      have sizes := places.sizes
      rw [listed, List.cons.injEq] at sizes
      obtain ⟨rfl, rfl⟩ := sizes
      have after := (counts.next places own).1
      simp only [Bool.false_eq_true, if_false] at after
      rw [ih after rfl later, places.capacity]
    constructor
    · rintro ⟨marks, last, placed, done, same⟩
      cases placed with
      | nil =>
        rw [doneSizes, listed] at done
        cases done
      | @cons _ q _ opened marks step rest =>
        have total := rest.cells
        have here := nextCells step
        have closed : opened = false := by
          cases opened with
          | false => rfl
          | true => simp only [Bool.toInt_true] at here; omega
        subst closed
        simp only [Bool.toInt_false, Int.add_zero] at here
        refine ⟨?_, (walks step).1 ⟨marks, last, rest, done, by omega⟩⟩
        obtain ⟨_, places⟩ := nextPlaces step
        have sizes := places.sizes
        rw [listed, List.cons.injEq] at sizes
        obtain ⟨rfl, rfl⟩ := sizes
        simpa using (counts.next places own).2.2
    · rintro ⟨fits, stays⟩
      cases step : p.next with
      | error why => exact absurd ((counts.fits own).2 fits) (nextFails listed step).2.1
      | ok pair =>
        obtain ⟨opened, q⟩ := pair
        obtain ⟨_, places⟩ := nextPlaces step
        have sizes := places.sizes
        rw [listed, List.cons.injEq] at sizes
        obtain ⟨rfl, rfl⟩ := sizes
        have closed : opened = false := by
          rw [← Bool.not_eq_true, (counts.next places own).2.1, not_not]
          exact fits
        subst closed
        obtain ⟨marks, last, placed, done, same⟩ := (walks step).2 stays
        exact ⟨false :: marks, last, .cons step placed, done, by rw [same, nextCells step]; simp⟩

theorem staysCounted {capacity : Capacity} {bits refs : Int} {sizes : List (Int × Int)}
    (counted : Counted bits refs sizes) :
    Stays wrapped capacity bits refs sizes ↔ Stays id capacity bits refs sizes := by
  refine forall_congr' fun before => forall_congr' fun size => forall_congr' fun after => forall_congr' fun parts => ?_
  obtain ⟨positive, bitsLow, refsLow, bitsHigh, refsHigh⟩ := counted
  rw [parts] at positive bitsHigh refsHigh
  simp only [Positive, List.forall_mem_append, List.forall_mem_cons] at positive
  obtain ⟨first, own, last⟩ := positive
  have start := Positive.sums first
  have rest := Positive.sums last
  have room := reserveRange after
  simp only [List.map_append, List.map_cons, List.sum_append, List.sum_cons] at bitsHigh refsHigh
  rw [Fits, Fits, wrappedExact (by omega) (by omega), wrappedExact (by omega) (by omega)]
  rfl

theorem staysExact {capacity : Capacity} {offset : Int} {sizes : List (Int × Int)} (room : 0 ≤ capacity.refs)
    (inside : offset ≤ capacity.bits) (positive : Positive sizes) :
    Stays id capacity offset 0 sizes ↔ offset + (sizes.map Prod.fst).sum ≤ capacity.bits ∧
      (sizes.map Prod.snd).sum ≤ capacity.refs ∧
      (2 ≤ sizes.length → (sizes.dropLast.map Prod.snd).sum ≤ capacity.refs - 1) := by
  constructor
  · intro stays
    rcases List.eq_nil_or_concat sizes with rfl | ⟨front, last, rfl⟩
    · simpa using ⟨inside, room⟩
    · rw [List.concat_eq_append] at stays ⊢
      -- The last leaf decides about the bits and references, and the one before it about the link.
      have whole := stays front last [] rfl
      simp only [Fits, reserve, List.isEmpty_nil, if_true, id, Int.zero_add, Int.add_zero] at whole
      simp only [List.map_append, List.sum_append, List.map_cons, List.map_nil, List.sum_singleton,
        List.dropLast_concat]
      refine ⟨by omega, whole.2, fun many => ?_⟩
      rcases List.eq_nil_or_concat front with rfl | ⟨before, size, rfl⟩
      · simp at many
      · rw [List.concat_eq_append] at stays ⊢
        have linked := (stays before size [last] (by simp)).2
        simp only [reserve, List.isEmpty_cons, Bool.false_eq_true, if_false, id, Int.zero_add] at linked
        simp only [List.map_append, List.sum_append, List.map_cons, List.map_nil, List.sum_singleton]
        omega
  · rintro ⟨bits, refs, link⟩ before size after rfl
    simp only [Positive, List.forall_mem_append, List.forall_mem_cons] at positive
    obtain ⟨first, own, last⟩ := positive
    have rest := Positive.sums last
    simp only [List.map_append, List.map_cons, List.sum_append, List.sum_cons] at bits refs
    refine ⟨by simp only [id]; omega, ?_⟩
    cases after with
    | nil =>
      simp only [reserve, List.isEmpty_nil, if_true, id, List.map_nil, List.sum_nil] at refs ⊢
      omega
    | cons next others =>
      have kept : Positive ((next :: others).dropLast) := fun s inside => last s (List.dropLast_subset _ inside)
      have some := kept.sums
      have free := link (by simp; omega)
      rw [List.dropLast_append_of_ne_nil (List.cons_ne_nil _ _), List.dropLast_cons_cons] at free
      simp only [List.map_append, List.map_cons, List.sum_append, List.sum_cons] at free
      simp only [reserve, List.isEmpty_cons, Bool.false_eq_true, if_false, id]
      omega

/- All leaves are placed, and in the first cell, just when each sum on the way fits it as a machine integer. While no
sum leaves their range, that is when the bits behind the offset and the references fit the cell and the leaves before
the last leave a reference free. -/
theorem oneCellExact {capacity : Capacity} {offset : Int} {leaves : List Leaf} (room : 0 ≤ capacity.refs)
    (inside : 0 ≤ offset ∧ offset ≤ capacity.bits) (limit : capacity.bits ≤ Text.largestInt)
    (sized : ∀ l ∈ leaves, (0 ≤ l.bits ∧ l.bits ≤ Text.largestInt) ∧ 0 ≤ l.refs ∧ l.refs ≤ Text.largestInt) :
    (OneCell ⟨capacity, offset, 0, 1, leaves⟩ ↔
      Stays wrapped capacity offset 0 (leaves.map fun l => (l.bits, l.refs))) ∧
    (offset + (leaves.map Leaf.bits).sum ≤ Text.largestInt → (leaves.map Leaf.refs).sum < Text.largestInt →
      (OneCell ⟨capacity, offset, 0, 1, leaves⟩ ↔ offset + (leaves.map Leaf.bits).sum ≤ capacity.bits ∧
        (leaves.map Leaf.refs).sum ≤ capacity.refs ∧
        (2 ≤ leaves.length → (leaves.dropLast.map Leaf.refs).sum ≤ capacity.refs - 1))) := by
  have counts : Counts ⟨capacity, offset, 0, 1, leaves⟩ offset 0 := ⟨(wrappedExact inside.1 (by omega)).symm, rfl⟩
  have walks : OneCell ⟨capacity, offset, 0, 1, leaves⟩ ↔
      Stays wrapped capacity offset 0 (leaves.map fun l => (l.bits, l.refs)) := by
    refine oneCellStays counts fun size found => ?_
    obtain ⟨l, member, rfl⟩ := List.mem_map.1 found
    obtain ⟨bits, refs⟩ := sized l member
    exact ⟨wrappedExact bits.1 bits.2, wrappedExact refs.1 refs.2⟩
  refine ⟨walks, fun bits refs => ?_⟩
  have positive : Positive (leaves.map fun l => (l.bits, l.refs)) := by
    intro size found
    obtain ⟨l, member, rfl⟩ := List.mem_map.1 found
    exact ⟨(sized l member).1.1, (sized l member).2.1⟩
  have bitsOf : (leaves.map fun l => (l.bits, l.refs)).map Prod.fst = leaves.map Leaf.bits := by simp
  have refsOf (leaves : List Leaf) :
    (leaves.map fun l => (l.bits, l.refs)).map Prod.snd = leaves.map Leaf.refs := by simp
  have counted : Counted offset 0 (leaves.map fun l => (l.bits, l.refs)) :=
    ⟨positive, inside.1, le_rfl, by rwa [bitsOf], by rwa [refsOf, Int.zero_add]⟩
  rw [walks, staysCounted counted, staysExact room inside.2 positive, bitsOf, refsOf, ← List.map_dropLast, refsOf,
    List.length_map]

def fourReferences : List Leaf := ["a", "b", "c", "d"].map fun path => ⟨path, .cell, 0, 1⟩

def oneFlag : Leaf := ⟨"e", .bool, 1, 0⟩

def longAddresses : List Leaf := ["a", "b"].map fun path => ⟨path, .address, Text.largestInt, 0⟩

theorem flagBeforeReferences :
    OneCell ⟨⟨1023, 4⟩, 1022, 0, 1, oneFlag :: fourReferences⟩ ∧
    ¬OneCell ⟨⟨1023, 4⟩, 1022, 0, 1, fourReferences ++ [oneFlag]⟩ ∧
    OneCell ⟨⟨Text.largestInt, 4⟩, 0, 0, 1, longAddresses⟩ := by
  have room : 0 ≤ (Capacity.mk 1023 4).refs := by decide
  have inside : 0 ≤ (1022 : Int) ∧ 1022 ≤ (Capacity.mk 1023 4).bits := by decide
  have limit : (Capacity.mk 1023 4).bits ≤ Text.largestInt := by decide
  refine ⟨?_, ?_, ?_⟩
  · refine ((oneCellExact room inside limit ?_).2 ?_ ?_).2 ?_ <;> decide
  · rw [(oneCellExact room inside limit ?_).2 ?_ ?_] <;> decide
  · refine (oneCellExact (by decide) (by decide) (by decide) (by decide)).1.2 ?_
    rw [longAddresses]
    simp only [List.map_cons, List.map_nil, staysCons]
    refine ⟨by decide, by decide, fun before size after parts => ?_⟩
    simp at parts

end Position

end CellChain
