import Mathlib
import CellChain.Proofs.Typing
/-! Chains of cells. Placing leaves marks each of them that opens a new cell. Pieces of data with these marks
fill builders one after the other; linked, the builders are one tape on which a piece that opens a cell stands
behind a reference. -/
namespace CellChain

theorem intSumZero (b : Int) : intSum 0 b = b := by
  simp [intSum]

theorem intSumExact {a b : Int} (low : 0 ≤ a + b) (high : a + b ≤ Text.largestInt) : intSum a b = a + b := by
  rw [intSum, if_neg (by omega), if_neg (by omega)]

namespace Position

def sizes (p : Position) : List (Int × Int) := p.leaves.map fun l => (l.bits, l.refs)

theorem leavesGroup {t : Ty} {types : List Ty} (group : t.parts? = some types) (target : Target) (path : String) :
    ∃ names, t.leaves target path = Ty.memberLeaves target path names types := by
  cases t <;> cases group
  · exact ⟨_, by rw [Ty.leaves]⟩
  · exact ⟨_, by rw [Ty.leaves]⟩

theorem leavesSingle {t : Ty} (single : t.parts? = none) {target : Target} {path : String} {leaves : List Leaf}
    (ok : t.leaves target path = .ok leaves) :
    leaves.map (fun l => (l.bits, l.refs)) = (t.leafSize? target).toList := by
  cases t <;> cases single <;> simp only [Ty.leaves, Ty.leafSize?] at ok ⊢ <;> cases ok <;> rfl

theorem leafSizes (target : Target) :
    (∀ t path leaves, Ty.leaves target path t = .ok leaves →
      leaves.map (fun l => (l.bits, l.refs)) = t.sizes target) ∧
    ∀ types, (∀ path names leaves, Ty.memberLeaves target path names types = .ok leaves →
        leaves.map (fun l => (l.bits, l.refs)) = Ty.sizesAll target types) ∧
      ∀ names leaves, Ty.listLeaves target names types = .ok leaves →
        leaves.map (fun l => (l.bits, l.refs)) = Ty.sizesAll target types := by
  apply Ty.groupInduction
  · intro t single path leaves ok
    rw [Ty.sizesSingle single, leavesSingle single ok]
  · intro t types group ih path leaves ok
    obtain ⟨names, opened⟩ := leavesGroup group target path
    rw [opened] at ok
    rw [Ty.sizesGroup group, ih.1 path names leaves ok]
  · refine ⟨fun path names leaves ok => ?_, fun names leaves ok => ?_⟩
    · rw [Ty.memberLeaves] at ok
      cases ok
      rfl
    · cases ok
      rfl
  · intro t rest one others
    refine ⟨fun path names leaves ok => ?_, fun names leaves ok => ?_⟩
    · rw [Ty.memberLeaves] at ok
      obtain ⟨first, firstOk, ok⟩ := okOfBind ok
      obtain ⟨more, moreOk, ok⟩ := okOfBind ok
      cases ok
      rw [List.map_append, one _ first firstOk, others.1 path _ more moreOk, Ty.sizesAll]
    · obtain ⟨first, firstOk, ok⟩ := okOfBind ok
      obtain ⟨more, moreOk, ok⟩ := okOfBind ok
      cases ok
      rw [List.map_append, one _ first firstOk, others.2 _ more moreOk, Ty.sizesAll]

theorem startOk {target : Target} {offset : Int} {names : List String} {types : List Ty} {capacity : Capacity}
    {p : Position} (ok : start target offset names types capacity = .ok p) :
    0 ≤ offset ∧ offset ≤ capacity.bits ∧ p.capacity = capacity ∧ p.bits = offset ∧ p.refs = 0 ∧
      p.sizes = Ty.sizesAll target types := by
  obtain ⟨_, inside, ok⟩ := okOfBind ok
  obtain ⟨leaves, listed, ok⟩ := okOfBind ok
  cases ok
  unfold require at inside
  split at inside
  · rename_i range
    exact ⟨range.1, range.2, rfl, rfl, rfl, ((leafSizes target).2 types).2 names leaves listed⟩
  · cases inside

def reserve (more : List (Int × Int)) : Int := if more.isEmpty then 0 else 1

theorem reserveRange (more : List (Int × Int)) : 0 ≤ reserve more ∧ reserve more ≤ 1 := by
  unfold reserve
  split <;> decide

/- One leaf was placed, in a new cell when it does not fit the current one. -/
structure Places (p : Position) (opened : Bool) (size : Int × Int) (q : Position) : Prop where
  sizes : p.sizes = size :: q.sizes
  capacity : q.capacity = p.capacity
  choice : opened = true ↔ ¬p.canFit size.1 (intSum size.2 (reserve q.sizes))
  bits : q.bits = intSum (if opened then 0 else p.bits) size.1
  refs : q.refs = intSum (intSum (if opened then 0 else p.refs) (intSum size.2 (reserve q.sizes))) (-reserve q.sizes)
  bitsFit : q.bits ≤ q.capacity.bits
  refsFit : intSum (if opened then 0 else p.refs) (intSum size.2 (reserve q.sizes)) ≤ q.capacity.refs

theorem consumeOk {p q : Position} {bits refs : Int} {opened : Bool} (ok : p.consume bits refs = .ok (opened, q)) :
    (opened = true ↔ ¬p.canFit bits refs) ∧
    q = { p with bits := intSum (if opened then 0 else p.bits) bits, refs := intSum (if opened then 0 else p.refs) refs,
                 cells := if opened then p.cells + 1 else p.cells } ∧
    q.bits ≤ p.capacity.bits ∧ q.refs ≤ p.capacity.refs := by
  unfold consume at ok
  split at ok
  · rename_i fits
    cases ok
    exact ⟨by simp [fits], rfl, fits.1, fits.2⟩
  · rename_i full
    simp only at ok
    split at ok
    · rename_i fits
      cases ok
      simp only [canFit, intSumZero] at fits
      exact ⟨by simp [full], by simp [intSumZero], fits.1, fits.2⟩
    · cases ok

theorem nextPlaces {p q : Position} {opened : Bool} (ok : p.next = .ok (opened, q)) :
    ∃ size, p.Places opened size q := by
  unfold next at ok
  cases leaves : p.leaves with
  | nil => simp [leaves] at ok
  | cons leaf rest =>
    simp only [leaves] at ok
    obtain ⟨⟨flag, r⟩, taken, ok⟩ := okOfBind ok
    obtain ⟨rfl, rfl⟩ := Prod.mk.inj (Except.ok.inj ok)
    obtain ⟨choice, rfl, bitsFit, refsFit⟩ := consumeOk taken
    have kept : reserve (rest.map fun l => (l.bits, l.refs)) = if rest.isEmpty then 0 else 1 := by
      simp only [reserve, List.isEmpty_map]
    refine ⟨(leaf.bits, leaf.refs), by simp [sizes, leaves], rfl, ?_, rfl, ?_, bitsFit, ?_⟩ <;> simp only [sizes, kept]
    · exact choice
    · exact refsFit

def Positive (sizes : List (Int × Int)) : Prop := ∀ size ∈ sizes, 0 ≤ size.1 ∧ 0 ≤ size.2

theorem Positive.sums {sizes : List (Int × Int)} (positive : Positive sizes) :
    0 ≤ (sizes.map Prod.fst).sum ∧ 0 ≤ (sizes.map Prod.snd).sum := by
  constructor
  · refine List.sum_nonneg fun n inside => ?_
    obtain ⟨size, found, rfl⟩ := List.mem_map.1 inside
    exact (positive size found).1
  · refine List.sum_nonneg fun n inside => ?_
    obtain ⟨size, found, rfl⟩ := List.mem_map.1 inside
    exact (positive size found).2

structure Counted (bits refs : Int) (sizes : List (Int × Int)) : Prop where
  positive : Positive sizes
  bitsLow : 0 ≤ bits
  refsLow : 0 ≤ refs
  bits : bits + (sizes.map Prod.fst).sum ≤ Text.largestInt
  refs : refs + (sizes.map Prod.snd).sum < Text.largestInt

theorem Places.exact {p q : Position} {opened : Bool} {size : Int × Int} (places : p.Places opened size q)
    (counted : Counted p.bits p.refs p.sizes) :
    q.bits = (if opened then 0 else p.bits) + size.1 ∧ q.refs = (if opened then 0 else p.refs) + size.2 ∧
      q.refs + reserve q.sizes ≤ q.capacity.refs ∧ Counted q.bits q.refs q.sizes := by
  obtain ⟨positive, bitsLow, refsLow, bitsHigh, refsHigh⟩ := counted
  rw [places.sizes] at positive bitsHigh refsHigh
  obtain ⟨own, later⟩ := List.forall_mem_cons.1 positive
  have sums := Positive.sums later
  have room := reserveRange q.sizes
  simp only [List.map_cons, List.sum_cons] at bitsHigh refsHigh
  generalize bitsBefore : (if opened then 0 else p.bits) = bits at *
  generalize refsBefore : (if opened then 0 else p.refs) = refs at *
  have low : 0 ≤ bits ∧ bits ≤ p.bits ∧ 0 ≤ refs ∧ refs ≤ p.refs := by
    cases opened <;> simp only [Bool.false_eq_true, if_false, if_true] at bitsBefore refsBefore <;> omega
  have bitsAt := places.bits
  have refsAt := places.refs
  have refsFit := places.refsFit
  rw [bitsBefore, intSumExact (by omega) (by omega)] at bitsAt
  rw [refsBefore, intSumExact (a := size.2) (by omega) (by omega),
    intSumExact (a := refs) (by omega) (by omega)] at refsFit
  rw [refsBefore, intSumExact (a := size.2) (by omega) (by omega), intSumExact (a := refs) (by omega) (by omega),
    intSumExact (by omega) (by omega)] at refsAt
  exact ⟨bitsAt, by omega, by omega, later, by omega, by omega, by omega, by omega⟩

inductive Placed : Position → List Bool → Position → Prop where
  | nil (p : Position) : Placed p [] p
  | cons {p q r : Position} {opened : Bool} {marks : List Bool} (first : p.next = .ok (opened, q))
      (rest : Placed q marks r) : Placed p (opened :: marks) r

theorem Placed.append {p q r : Position} {marks more : List Bool} (first : Placed p marks q)
    (second : Placed q more r) : Placed p (marks ++ more) r := by
  induction first with
  | nil p => exact second
  | cons one _ ih => exact .cons one (ih second)

theorem Placed.sizes {p q : Position} {marks : List Bool} (h : Placed p marks q) :
    q.sizes = p.sizes.drop marks.length := by
  induction h with
  | nil p => rfl
  | cons first _ ih =>
    obtain ⟨size, places⟩ := nextPlaces first
    rw [ih, places.sizes]
    rfl

structure Alike (p q : Position) : Prop where
  capacity : p.capacity = q.capacity
  bits : p.bits = q.bits
  refs : p.refs = q.refs
  sizes : p.sizes = q.sizes

theorem nextAlike {p q p' q' : Position} {opened opened' : Bool} (alike : Alike p q)
    (one : p.next = .ok (opened, p')) (two : q.next = .ok (opened', q')) : opened = opened' ∧ Alike p' q' := by
  obtain ⟨size, first⟩ := nextPlaces one
  obtain ⟨size', second⟩ := nextPlaces two
  have listed := alike.sizes
  rw [first.sizes, second.sizes, List.cons.injEq] at listed
  obtain ⟨rfl, more⟩ := listed
  have same : opened = opened' := by
    rw [Bool.eq_iff_iff, first.choice, second.choice, more]
    simp only [canFit, alike.bits, alike.refs, alike.capacity]
  subst same
  refine ⟨rfl, ?_, ?_, ?_, more⟩
  · rw [first.capacity, second.capacity, alike.capacity]
  · rw [first.bits, second.bits, alike.bits]
  · rw [first.refs, second.refs, alike.refs, more]

theorem doneSizes {p : Position} : p.done = true ↔ p.sizes = [] := by
  simp [done, sizes]

theorem placedAlike {p q p' q' : Position} {marks marks' : List Bool} (alike : Alike p q)
    (one : Placed p marks p') (doneOne : p'.done = true) (two : Placed q marks' q') (doneTwo : q'.done = true) :
    marks = marks' := by
  induction one generalizing q marks' with
  | nil p =>
    cases two with
    | nil => rfl
    | cons next _ =>
      obtain ⟨size, places⟩ := nextPlaces next
      rw [doneSizes, alike.sizes, places.sizes] at doneOne
      cases doneOne
  | cons first rest ih =>
    cases two with
    | nil =>
      obtain ⟨size, places⟩ := nextPlaces first
      rw [doneSizes, ← alike.sizes, places.sizes] at doneTwo
      cases doneTwo
    | cons second others =>
      obtain ⟨rfl, after⟩ := nextAlike alike first second
      rw [ih after doneOne others]

end Position

structure Chain where
  current : Builder
  closed : List Builder

namespace Chain

def put (c : Chain) (piece : Bool × Builder) : Chain :=
  if piece.1 then ⟨piece.2, c.current :: c.closed⟩ else ⟨c.current ++ piece.2, c.closed⟩

def fill (c : Chain) (pieces : List (Bool × Builder)) : Chain := pieces.foldl put c

theorem fillAppend (c : Chain) (a b : List (Bool × Builder)) : c.fill (a ++ b) = (c.fill a).fill b :=
  List.foldl_append

def link (c : Chain) : Builder := c.closed.foldl (fun inner outer => outer.storeRef inner.finish) c.current

end Chain

/- What is read from a chain: the pieces in order, then `w`. -/
def tape : List (Bool × Builder) → Builder → Builder
  | [], w => w
  | (opened, x) :: rest, w => if opened then .ofCell (x ++ tape rest w).finish else x ++ tape rest w

theorem tapeAppend (a b : List (Bool × Builder)) (w : Builder) : tape (a ++ b) w = tape a (tape b w) := by
  induction a with
  | nil => rfl
  | cons piece rest ih => simp [tape, ih]

theorem Chain.linkFill (c : Chain) (pieces : List (Bool × Builder)) :
    (c.fill pieces).link = Chain.link ⟨c.current ++ tape pieces .empty, c.closed⟩ := by
  induction pieces generalizing c with
  | nil => simp [fill, tape]
  | cons piece rest ih =>
    obtain ⟨opened, x⟩ := piece
    change ((c.put (opened, x)).fill rest).link = _
    rw [ih]
    cases opened with
    | false => simp [put, tape, Builder.appendAssoc]
    | true => simp [put, tape, link, Builder.storeRefAppend]

structure Builder.Roomy (limits : Capacity) (b : Builder) : Prop where
  bits : (b.bits.length : Int) ≤ limits.bits
  refs : (b.refs.length : Int) + 1 ≤ limits.refs

/- The builders hold no more than the position says, which counts a reference for each dictionary. -/
structure Chain.Holds (limits : Capacity) (c : Chain) (p : Position) : Prop where
  capacity : p.capacity = limits
  bits : (c.current.bits.length : Int) = p.bits
  bitsFit : p.bits ≤ limits.bits
  refs : (c.current.refs.length : Int) ≤ p.refs
  refsFit : p.refs + Position.reserve p.sizes ≤ limits.refs
  counted : Position.Counted p.bits p.refs p.sizes
  closed : ∀ b ∈ c.closed, b.Roomy limits

theorem Chain.Holds.within {limits : Capacity} {c : Chain} {p : Position} (h : c.Holds limits p) :
    Machine.withinLimits limits c.current := by
  have data := h.bits
  have fits := h.bitsFit
  have links := h.refs
  have room := h.refsFit
  have reserved := Position.reserveRange p.sizes
  exact ⟨.inr (by omega), by omega⟩

theorem Chain.Holds.put {limits : Capacity} {c : Chain} {p q : Position} {opened : Bool} {size : Int × Int}
    {w : Builder} (h : c.Holds limits p) (places : p.Places opened size q) (sized : w.Sized size) :
    (c.put (opened, w)).Holds limits q := by
  have data := sized.bits
  have links := sized.refs
  have bits := h.bits
  have refs := h.refs
  obtain ⟨bitsAfter, refsAfter, room, counted⟩ := places.exact h.counted
  have same : q.capacity = limits := places.capacity.trans h.capacity
  have fits := places.bitsFit
  rw [same] at fits room
  cases opened with
  | false =>
    simp only [Bool.false_eq_true, if_false] at bitsAfter refsAfter
    refine ⟨same, ?_, fits, ?_, room, counted, h.closed⟩
    · simp only [Chain.put, Bool.false_eq_true, if_false, Builder.appendBits, List.length_append]
      omega
    · simp only [Chain.put, Bool.false_eq_true, if_false, Builder.appendRefs, List.length_append]
      omega
  | true =>
    simp only [if_true] at bitsAfter refsAfter
    refine ⟨same, ?_, fits, ?_, room, counted, ?_⟩
    · simp only [Chain.put, if_true]
      omega
    · simp only [Chain.put, if_true]
      omega
    · intro b mem
      rcases List.mem_cons.1 mem with rfl | before
      · have before := h.bitsFit
        have free := h.refsFit
        rw [places.sizes] at free
        simp only [Position.reserve, List.isEmpty_cons, Bool.false_eq_true, if_false] at free
        exact ⟨by omega, by omega⟩
      · exact h.closed b before

end CellChain
