import Mathlib
import CellChain.Layout.Position
import CellChain.Proofs.ChainRoundTrip
import CellChain.Proofs.CodecCompletion
/-! The geometry of a layout. Entries are the leaves of the members in order. Each stands where the one before it ends,
or at the start of the next cell when it does not fit beside the reference that is kept free while leaves follow. The
bits are counted with machine integers; while these hold the sum of all bits, no cell holds more than it has room for.
A member that is appended moves no leaf but the last one. -/
namespace CellChain

namespace Ty

mutual
def flat (path : String) : Ty → List (String × Ty)
  | .struct _ names types => flatAll (path ++ "." ++ ·) names types
  | .tuple types => flatAll (path ++ "." ++ ·) (positions types) types
  | t => [(path, t)]

def flatAll (below : String → String) (names : List String) : List Ty → List (String × Ty)
  | [] => []
  | t :: rest => flat (below (names.headD "")) t ++ flatAll below names.tail rest
end

theorem flatGroup {t : Ty} {types : List Ty} (group : t.parts? = some types) (path : String) :
    ∃ names, t.flat path = flatAll (path ++ "." ++ ·) names types ∧
      ∀ target, t.leaves target path = memberLeaves target path names types := by
  cases t <;> cases group
  · exact ⟨_, by rw [flat], fun target => by rw [leaves]⟩
  · exact ⟨_, by rw [flat], fun target => by rw [leaves]⟩

end Ty

def flatMembers (members : List (String × Ty)) : List (String × Ty) := members.flatMap fun m => m.2.flat m.1

def Leaf.told (l : Leaf) : String × Ty × Option (Int × Int) := (l.path, l.type, some (l.bits, l.refs))

def sizedFor (target : Target) (l : String × Ty) : String × Ty × Option (Int × Int) := (l.1, l.2, l.2.leafSize? target)

theorem leavesTold (target : Target) :
    (∀ t path leaves, Ty.leaves target path t = .ok leaves →
      leaves.map Leaf.told = (t.flat path).map (sizedFor target)) ∧
    ∀ types, (∀ path names leaves, Ty.memberLeaves target path names types = .ok leaves →
        leaves.map Leaf.told = (Ty.flatAll (path ++ "." ++ ·) names types).map (sizedFor target)) := by
  apply Ty.groupInduction
  · intro t single path leaves ok
    cases t <;> cases single <;> simp only [Ty.leaves, Ty.leafSize?] at ok <;> cases ok <;>
      simp [Ty.flat, Leaf.told, sizedFor, Ty.leafSize?]
  · intro t types group ih path leaves ok
    obtain ⟨names, spread, opened⟩ := Ty.flatGroup group path
    rw [opened] at ok
    rw [spread, ih path names leaves ok]
  · intro path names leaves ok
    rw [Ty.memberLeaves] at ok
    cases ok
    simp [Ty.flatAll]
  · intro t rest one others path names leaves ok
    rw [Ty.memberLeaves] at ok
    obtain ⟨first, firstOk, ok⟩ := okOfBind ok
    obtain ⟨more, moreOk, ok⟩ := okOfBind ok
    cases ok
    rw [List.map_append, one _ first firstOk, others path _ more moreOk, Ty.flatAll, List.map_append]

section
variable {target : Target} {offset : Int} {ms ns : List (String × Ty)} {leaves : List Leaf} {entries : List LayoutEntry}

def memberLeavesOf (target : Target) (members : List (String × Ty)) : Except Abort (List Leaf) :=
  Ty.listLeaves target (members.map Prod.fst) (members.map Prod.snd)

theorem membersTold (ok : memberLeavesOf target ms = .ok leaves) :
    leaves.map Leaf.told = (flatMembers ms).map (sizedFor target) := by
  induction ms generalizing leaves with
  | nil =>
    cases ok
    rfl
  | cons m rest ih =>
    obtain ⟨first, firstOk, ok⟩ := okOfBind ok
    obtain ⟨more, moreOk, ok⟩ := okOfBind ok
    cases ok
    have own := (leavesTold target).1 m.2 m.1 first firstOk
    rw [List.map_append, own, ih moreOk, ← List.map_append]
    rfl

theorem membersPaths (ok : memberLeavesOf target ms = .ok leaves) :
    leaves.map (fun l => (l.path, l.type)) = flatMembers ms := by
  have paths := congrArg (List.map fun l => (l.1, l.2.1)) (membersTold ok)
  rw [List.map_map, List.map_map] at paths
  exact paths.trans (List.map_id _)

theorem membersAppend (ok : memberLeavesOf target (ms ++ ns) = .ok leaves) :
    ∃ first more, memberLeavesOf target ms = .ok first ∧ memberLeavesOf target ns = .ok more ∧
      leaves = first ++ more := by
  induction ms generalizing leaves with
  | nil => exact ⟨[], leaves, rfl, ok, rfl⟩
  | cons m rest ih =>
    obtain ⟨own, ownOk, ok⟩ := okOfBind ok
    obtain ⟨others, othersOk, ok⟩ := okOfBind ok
    cases ok
    obtain ⟨first, more, firstOk, moreOk, rfl⟩ := ih othersOk
    refine ⟨own ++ first, more, ?_, moreOk, by rw [List.append_assoc]⟩
    change (Ty.leaves target m.1 m.2 >>= fun a => memberLeavesOf target rest >>= fun b => .ok (a ++ b)) = _
    have head : Ty.leaves target m.1 m.2 = .ok own := ownOk
    rw [head, firstOk]
    rfl

end

def lastCell (first : Int) (entries : List LayoutEntry) : Int := (entries.getLast?.map LayoutEntry.cell).getD first

theorem lastCons (first : Int) (e : LayoutEntry) (entries : List LayoutEntry) :
    lastCell first (e :: entries) = lastCell e.cell entries := by
  unfold lastCell
  rw [List.getLast?_cons]
  cases entries.getLast? <;> rfl

def LayoutEntry.Fits (count : Int → Int) (e : LayoutEntry) (room : Capacity) (bits refs : Int)
    (rest : List LayoutEntry) : Prop :=
  count (bits + e.bits) ≤ room.bits ∧ refs + e.refs + (if rest = [] then 0 else 1) ≤ room.refs

/- Entries one after the other, from a cell of which some bits and references are taken. A mark stands for each that
opens a cell. -/
inductive Filled (count : Int → Int) (room : Capacity) : Int → Int → Int → List Bool → List LayoutEntry → Prop
  | nil (cell bits refs : Int) : Filled count room cell bits refs [] []
  | stays {cell bits refs : Int} {marks : List Bool} {e : LayoutEntry} {rest : List LayoutEntry} (here : e.cell = cell)
      (next : e.bitOffset = count bits) (fits : e.Fits count room bits refs rest)
      (more : Filled count room cell (bits + e.bits) (refs + e.refs) marks rest) :
      Filled count room cell bits refs (false :: marks) (e :: rest)
  | opens {cell bits refs : Int} {marks : List Bool} {e : LayoutEntry} {rest : List LayoutEntry}
      (there : e.cell = cell + 1) (start : e.bitOffset = 0) (full : ¬e.Fits count room bits refs rest)
      (fits : e.Fits count room 0 0 rest) (more : Filled count room (cell + 1) e.bits e.refs marks rest) :
      Filled count room cell bits refs (true :: marks) (e :: rest)

def LayoutEntry.leaf (e : LayoutEntry) : Leaf := ⟨e.path, e.type, e.bits, e.refs⟩

theorem placeTold {leaves : List Leaf} {p : Position} {entries : List LayoutEntry} (ok : place leaves p = .ok entries) :
    entries.map LayoutEntry.leaf = leaves := by
  induction leaves generalizing p entries with
  | nil =>
    cases ok
    rfl
  | cons leaf rest ih =>
    obtain ⟨⟨opened, q⟩, next, ok⟩ := okOfBind ok
    obtain ⟨more, placed, ok⟩ := okOfBind ok
    cases ok
    rw [List.map_cons, ih placed]
    rfl

theorem Position.nextLeaves {p q : Position} {leaf : Leaf} {rest : List Leaf} {opened : Bool}
    (listed : p.leaves = leaf :: rest) (ok : p.next = .ok (opened, q)) : q.leaves = rest := by
  unfold next at ok
  simp only [listed] at ok
  obtain ⟨⟨flag, r⟩, taken, ok⟩ := okOfBind ok
  obtain ⟨rfl, rfl⟩ := Prod.mk.inj (Except.ok.inj ok)
  obtain ⟨-, rfl, -, -⟩ := consumeOk taken
  rfl

structure Leaf.Countable (refs : Int) (leaves : List Leaf) : Prop where
  bits : ∀ l ∈ leaves, 0 ≤ l.bits ∧ l.bits ≤ Text.largestInt
  links : ∀ l ∈ leaves, 0 ≤ l.refs
  before : 0 ≤ refs
  sum : refs + (leaves.map Leaf.refs).sum < Text.largestInt

theorem Leaf.Countable.next {refs : Int} {leaf : Leaf} {rest : List Leaf} (countable : Countable refs (leaf :: rest)) :
    Position.Countable (leaf.bits, leaf.refs) ∧ 0 ≤ leaf.refs ∧ refs + leaf.refs < Text.largestInt ∧
      Countable (refs + leaf.refs) rest ∧ Countable leaf.refs rest := by
  obtain ⟨bits, links, before, sum⟩ := countable
  obtain ⟨own, others⟩ := List.forall_mem_cons.1 bits
  obtain ⟨link, more⟩ := List.forall_mem_cons.1 links
  have positive : 0 ≤ (rest.map Leaf.refs).sum := by
    refine List.sum_nonneg fun n inside => ?_
    obtain ⟨l, found, rfl⟩ := List.mem_map.1 inside
    exact more l found
  rw [List.map_cons, List.sum_cons] at sum
  exact ⟨⟨wrappedExact own.1 own.2, wrappedExact link (by omega)⟩, link, by omega,
    ⟨others, more, by omega, by omega⟩, others, more, link, by omega⟩

theorem placeFilled {leaves : List Leaf} {p : Position} (listed : p.leaves = leaves) {bits refs : Int}
    (counts : p.Counts bits refs) (countable : Leaf.Countable refs leaves) {entries : List LayoutEntry}
    (ok : place leaves p = .ok entries) :
    ∃ marks q, p.Placed marks q ∧ q.done = true ∧
      Filled wrapped p.capacity (p.cells - 1) bits refs marks entries := by
  induction leaves generalizing p bits refs entries with
  | nil =>
    cases ok
    exact ⟨[], p, .nil p, by simp [Position.done, listed], .nil _ _ _⟩
  | cons leaf rest ih =>
    obtain ⟨⟨opened, q⟩, next, ok⟩ := okOfBind ok
    obtain ⟨more, placed, ok⟩ := okOfBind ok
    cases ok
    obtain ⟨own, link, small, stayed, fresh⟩ := countable.next
    have left := Position.nextLeaves listed next
    obtain ⟨size, places⟩ := Position.nextPlaces next
    have sizes := places.sizes
    simp only [Position.sizes, listed, List.map_cons, List.cons.injEq] at sizes
    obtain ⟨rfl, -⟩ := sizes
    obtain ⟨after, choice, fits⟩ := counts.next places own
    have cells := Position.nextCells next
    have kept : Position.reserve q.sizes = if more = [] then 0 else 1 := by
      rw [Position.reserve, Position.sizes, left, ← placeTold placed]
      cases more <;> rfl
    have begins (before : Int) : intSum (wrapped (before + leaf.bits)) (-leaf.bits) = wrapped before := by
      have back : wrapped (-leaf.bits) = -leaf.bits := by
        have range := countable.bits leaf List.mem_cons_self
        simp only [wrapped, Text.largestInt] at range ⊢
        omega
      rw [← back, intSumWrapped, Int.add_neg_cancel_right]
    -- A leaf and the link beside it are counted exactly, so only the bits are told by machine integers.
    have exact {e : LayoutEntry} (size : e.bits = leaf.bits ∧ e.refs = leaf.refs) {before links : Int}
        (low : 0 ≤ links) (high : links + leaf.refs < Text.largestInt) :
        Position.Fits wrapped p.capacity before links (leaf.bits, leaf.refs) q.sizes ↔
          e.Fits wrapped p.capacity before links more := by
      have linked : 0 ≤ (if more = [] then (0 : Int) else 1) ∧ (if more = [] then (0 : Int) else 1) ≤ 1 := by
        split <;> decide
      rw [Position.Fits, LayoutEntry.Fits, kept, wrappedExact (x := links + leaf.refs + _) (by omega) (by omega),
        size.1, size.2]
    cases opened with
    | false =>
      simp only [Bool.false_eq_true, if_false, Bool.toInt_false, Int.add_zero] at after fits cells
      obtain ⟨marks, r, walked, done, filled⟩ := ih left after stayed placed
      rw [places.capacity, cells] at filled
      refine ⟨false :: marks, r, .cons next walked, done, .stays (by simp [cells]) ?_ ?_ filled⟩
      · simp only [after.bits]
        exact begins bits
      · exact (exact ⟨rfl, rfl⟩ countable.before small).1 fits
    | true =>
      simp only [if_true, Bool.toInt_true, Int.zero_add] at after fits cells
      obtain ⟨marks, r, walked, done, filled⟩ := ih left after fresh placed
      have number : q.cells - 1 = p.cells - 1 + 1 := by omega
      rw [places.capacity, number] at filled
      refine ⟨true :: marks, r, .cons next walked, done, .opens number ?_ ?_ ?_ filled⟩
      · have zero := begins 0
        rw [Int.zero_add] at zero
        simp only [after.bits]
        exact zero
      · exact fun fitting => choice.1 rfl ((exact ⟨rfl, rfl⟩ countable.before small).2 fitting)
      · have before := countable.before
        exact (exact ⟨rfl, rfl⟩ le_rfl (by omega)).1 fits

def taken (measure : LayoutEntry → Int) (cell before k : Int) (entries : List LayoutEntry) : Int :=
  (if k = cell then before else 0) + ((entries.filter (·.cell = k)).map measure).sum

section
variable {measure : LayoutEntry → Int} {cell before k : Int} {e : LayoutEntry} {rest : List LayoutEntry}

theorem takenStays (here : e.cell = cell) :
    taken measure cell before k (e :: rest) = taken measure cell (before + measure e) k rest := by
  unfold taken
  by_cases own : k = cell
  · simp [own, here]
    omega
  · have other : e.cell ≠ k := by omega
    simp [own, other]

theorem takenOpens (there : e.cell = cell + 1) (later : ∀ f ∈ rest, cell + 1 ≤ f.cell) :
    taken measure cell before k (e :: rest) =
      if k = cell then before else taken measure (cell + 1) (measure e) k rest := by
  unfold taken
  by_cases own : k = cell
  · have none : (e :: rest).filter (·.cell = k) = [] := by
      rw [List.filter_eq_nil_iff]
      intro f inside
      rw [decide_eq_true_eq]
      rcases List.mem_cons.1 inside with rfl | inside
      · omega
      · have := later f inside
        omega
    rw [none]
    simp [own]
  · by_cases next : k = cell + 1
    · simp [next, there]
    · have other : e.cell ≠ k := by omega
      simp [own, next, other]

theorem takenEarlier (later : ∀ f ∈ rest, cell ≤ f.cell) (early : k < cell) : taken measure cell before k rest = 0 := by
  have none : rest.filter (·.cell = k) = [] := by
    rw [List.filter_eq_nil_iff]
    intro f inside
    rw [decide_eq_true_eq]
    have := later f inside
    omega
  rw [taken, none, if_neg (by omega)]
  rfl

end

def LayoutEntry.Follows (count : Int → Int) (a b : LayoutEntry) : Prop :=
  b.cell = a.cell ∧ b.bitOffset = count (a.bitOffset + a.bits) ∨ b.cell = a.cell + 1 ∧ b.bitOffset = 0

namespace Filled

variable {count : Int → Int} {room : Capacity} {cell bits refs : Int} {marks : List Bool} {e : LayoutEntry}
  {entries rest : List LayoutEntry}

theorem head (filled : Filled count room cell bits refs marks (e :: rest)) :
    e.cell = cell ∧ e.bitOffset = count bits ∨ e.cell = cell + 1 ∧ e.bitOffset = 0 := by
  cases filled with
  | stays here next => exact .inl ⟨here, next⟩
  | opens there start => exact .inr ⟨there, start⟩

theorem chain (filled : Filled count room cell bits refs marks entries)
    (once : ∀ a b, count (count a + b) = count (a + b)) : entries.IsChain (LayoutEntry.Follows count) := by
  induction filled with
  | nil => exact .nil
  | @stays cell bits refs marks e rest here next fits more ih =>
    refine List.isChain_cons.2 ⟨fun f first => ?_, ih⟩
    cases rest with
    | nil => cases first
    | cons g others =>
      cases first
      rw [LayoutEntry.Follows, here, next, once]
      exact more.head
  | @opens cell bits refs marks e rest there start full fits more ih =>
    refine List.isChain_cons.2 ⟨fun f first => ?_, ih⟩
    cases rest with
    | nil => cases first
    | cons g others =>
      cases first
      rw [LayoutEntry.Follows, there, start, Int.zero_add]
      exact more.head

theorem after (filled : Filled count room cell bits refs marks entries) : ∀ e ∈ entries, cell ≤ e.cell := by
  induction filled with
  | nil => exact List.forall_mem_nil _
  | stays here next fits more ih => exact List.forall_mem_cons.2 ⟨by omega, ih⟩
  | opens there start full fits more ih =>
    refine List.forall_mem_cons.2 ⟨by omega, fun e inside => ?_⟩
    have later := ih e inside
    omega

theorem bitsWithin (filled : Filled count room cell bits refs marks entries) (some : count 0 ≤ room.bits)
    (begun : count bits ≤ room.bits) (k : Int) : count (taken LayoutEntry.bits cell bits k entries) ≤ room.bits := by
  induction filled with
  | nil =>
    simp only [taken, List.filter_nil, List.map_nil, List.sum_nil, Int.add_zero]
    split
    · exact begun
    · exact some
  | stays here next fits more ih =>
    rw [takenStays here]
    exact ih fits.1
  | opens there start full fits more ih =>
    rw [takenOpens there more.after]
    split
    · exact begun
    · have own := fits.1
      rw [Int.zero_add] at own
      exact ih own

theorem refsWithin (filled : Filled count room cell bits refs marks entries) (some : 1 ≤ room.refs)
    (begun : refs + (if entries = [] then 0 else 1) ≤ room.refs) (k : Int) :
    taken LayoutEntry.refs cell refs k entries ≤ room.refs ∧
      ∀ e ∈ entries, k < e.cell → taken LayoutEntry.refs cell refs k entries + 1 ≤ room.refs := by
  induction filled with
  | nil =>
    refine ⟨?_, List.forall_mem_nil _⟩
    simp only [taken, List.filter_nil, List.map_nil, List.sum_nil]
    simp only [if_true] at begun
    split <;> omega
  | @stays cell bits refs marks e rest here next fits more ih =>
    rw [takenStays here]
    obtain ⟨whole, linked⟩ := ih fits.2
    refine ⟨whole, List.forall_mem_cons.2 ⟨fun early => ?_, linked⟩⟩
    rw [takenEarlier more.after (by omega)]
    exact some
  | @opens cell bits refs marks e rest there start full fits more ih =>
    rw [takenOpens there more.after]
    rw [if_neg (List.cons_ne_nil _ _)] at begun
    have own := fits.2
    obtain ⟨whole, linked⟩ := ih (by omega)
    split
    · exact ⟨by omega, fun _ _ _ => begun⟩
    · refine ⟨whole, List.forall_mem_cons.2 ⟨fun early => ?_, linked⟩⟩
      rw [takenEarlier more.after (by omega)]
      exact some

theorem opensIff {before after : List LayoutEntry}
    (filled : Filled count room cell bits refs marks (before ++ e :: after)) :
    e.cell ≠ lastCell cell before ↔
      ¬e.Fits count room (taken LayoutEntry.bits cell bits (lastCell cell before) before)
        (taken LayoutEntry.refs cell refs (lastCell cell before) before) after := by
  induction before generalizing cell bits refs marks with
  | nil =>
    have none (measure : LayoutEntry → Int) (amount : Int) : taken measure cell amount cell [] = amount := by
      simp [taken]
    change e.cell ≠ cell ↔ ¬e.Fits count room (taken _ cell bits cell []) (taken _ cell refs cell []) after
    rw [none, none]
    cases filled with
    | stays here next fits more => simp [here, fits]
    | opens there start full fits more => simp [there, full]
  | cons b rest ih =>
    rw [lastCons]
    cases filled with
    | stays here next fits more =>
      rw [takenStays here, takenStays here, here]
      exact ih more
    | opens there start full fits more =>
      have later : ∀ f ∈ rest, cell + 1 ≤ f.cell := fun f inside => more.after f (List.mem_append_left _ inside)
      have past : lastCell (cell + 1) rest ≠ cell := by
        unfold lastCell
        cases last : rest.getLast? with
        | none => simp
        | some f =>
          have := later f (List.mem_of_getLast? last)
          simp only [Option.map_some, Option.getD_some]
          omega
      rw [there, takenOpens there later, takenOpens there later, if_neg past, if_neg past]
      exact ih more

theorem exact (filled : Filled wrapped room cell bits refs marks entries) (low : 0 ≤ bits)
    (sized : ∀ e ∈ entries, 0 ≤ e.bits) (high : bits + (entries.map LayoutEntry.bits).sum ≤ Text.largestInt) :
    Filled id room cell bits refs marks entries := by
  induction filled with
  | nil => exact .nil _ _ _
  | @stays cell bits refs marks e rest here next fits more ih =>
    obtain ⟨own, others⟩ := List.forall_mem_cons.1 sized
    have later : 0 ≤ (rest.map LayoutEntry.bits).sum := List.sum_nonneg (by simpa using others)
    rw [List.map_cons, List.sum_cons] at high
    rw [wrappedExact low (by omega)] at next
    rw [LayoutEntry.Fits, wrappedExact (by omega) (by omega)] at fits
    exact .stays here next fits (ih (by omega) others (by omega))
  | @opens cell bits refs marks e rest there start full fits more ih =>
    obtain ⟨own, others⟩ := List.forall_mem_cons.1 sized
    have later : 0 ≤ (rest.map LayoutEntry.bits).sum := List.sum_nonneg (by simpa using others)
    rw [List.map_cons, List.sum_cons] at high
    rw [LayoutEntry.Fits, wrappedExact (by omega) (by omega)] at full
    rw [LayoutEntry.Fits, wrappedExact (by omega) (by omega)] at fits
    exact .opens there start full fits (ih own others (by omega))

end Filled

structure Geometry (count : Int → Int) (target : Target) (offset : Int) (entries : List LayoutEntry) : Prop where
  first : ∀ e ∈ entries.head?, e.cell = 0 ∧ e.bitOffset = offset ∨ e.cell = 1 ∧ e.bitOffset = 0
  chain : entries.IsChain (LayoutEntry.Follows count)
  bits : ∀ k, count (taken LayoutEntry.bits 0 offset k entries) ≤ target.cellBits
  refs : ∀ k, taken LayoutEntry.refs 0 0 k entries ≤ target.cellRefs
  links : ∀ k, ∀ e ∈ entries, k < e.cell → taken LayoutEntry.refs 0 0 k entries + 1 ≤ target.cellRefs
  opens : ∀ before e after, entries = before ++ e :: after → (e.cell ≠ lastCell 0 before ↔
    ¬e.Fits count target.cell (taken LayoutEntry.bits 0 offset (lastCell 0 before) before)
      (taken LayoutEntry.refs 0 0 (lastCell 0 before) before) after)

theorem Filled.geometry {count : Int → Int} {target : Target} {offset : Int} {marks : List Bool}
    {entries : List LayoutEntry} (filled : Filled count target.cell 0 offset 0 marks entries)
    (once : ∀ a b, count (count a + b) = count (a + b)) (zero : count 0 = 0) (begun : count offset = offset)
    (inside : 0 ≤ offset ∧ offset ≤ target.cellBits) (links : 2 ≤ target.cellRefs) :
    Geometry count target offset entries := by
  have room : 2 ≤ target.cell.refs := links
  have free : 0 + (if entries = [] then 0 else 1) ≤ target.cell.refs := by split <;> omega
  have refs := filled.refsWithin (by omega) free
  refine ⟨?_, filled.chain once, ?_, fun k => (refs k).1, fun k => (refs k).2, ?_⟩
  · intro e first
    cases entries with
    | nil => cases first
    | cons f rest =>
      cases first
      rw [← begun]
      exact filled.head
  · exact filled.bitsWithin (by rw [zero]; exact le_trans inside.1 inside.2) (by rw [begun]; exact inside.2)
  · intro before e after parts
    subst parts
    exact filled.opensIff

theorem Position.startLeaves {target : Target} {offset : Int} {names : List String} {types : List Ty}
    {capacity : Capacity} {p : Position} (ok : start target offset names types capacity = .ok p) :
    p.cells = 1 ∧ Ty.listLeaves target names types = .ok p.leaves := by
  obtain ⟨_, -, ok⟩ := okOfBind ok
  obtain ⟨leaves, listed, ok⟩ := okOfBind ok
  cases ok
  exact ⟨rfl, listed⟩

theorem layoutFilled {target : Target} {offset : Int} {names : List String} {types : List Ty}
    {entries : List LayoutEntry}
    (ok : layout target offset names types = .ok entries) (high : offset ≤ Text.largestInt)
    (countable : Leaf.Countable 0 (entries.map LayoutEntry.leaf)) :
    ∃ p marks q, Position.start target offset names types target.cell = .ok p ∧ p.Placed marks q ∧ q.done = true ∧
      Filled wrapped target.cell 0 offset 0 marks entries := by
  obtain ⟨p, begun, ok⟩ := okOfBind ok
  obtain ⟨low, -, room, bits, refs, -⟩ := Position.startOk begun
  obtain ⟨single, -⟩ := Position.startLeaves begun
  have counts : p.Counts offset 0 := ⟨by rw [bits, wrappedExact low high], refs⟩
  rw [placeTold ok] at countable
  obtain ⟨marks, q, placed, done, filled⟩ := placeFilled rfl counts countable ok
  rw [room, single] at filled
  exact ⟨p, marks, q, begun, placed, done, filled⟩

theorem layoutLeaves {target : Target} {offset : Int} {names : List String} {types : List Ty}
    {entries : List LayoutEntry}
    (ok : layout target offset names types = .ok entries) :
    0 ≤ offset ∧ offset ≤ target.cellBits ∧
      Ty.listLeaves target names types = .ok (entries.map LayoutEntry.leaf) ∧
      entries.map (fun e => (e.bits, e.refs)) = Ty.sizesAll target types := by
  obtain ⟨p, begun, ok⟩ := okOfBind ok
  obtain ⟨low, high, -, -, -, sizes⟩ := Position.startOk begun
  obtain ⟨-, listed⟩ := Position.startLeaves begun
  rw [← placeTold ok] at listed
  rw [Position.sizes, ← placeTold ok, List.map_map] at sizes
  exact ⟨low, high, listed, sizes⟩

theorem entriesCountable {offset : Int} {sizes : List (Int × Int)} {entries : List LayoutEntry}
    (sized : entries.map (fun e => (e.bits, e.refs)) = sizes) (counted : Position.Counted offset 0 sizes) :
    Leaf.Countable 0 (entries.map LayoutEntry.leaf) ∧ (∀ e ∈ entries, 0 ≤ e.bits) ∧
      offset + (entries.map LayoutEntry.bits).sum ≤ Text.largestInt := by
  obtain ⟨positive, low, -, bits, refs⟩ := counted
  subst sized
  rw [List.map_map] at bits refs
  have own : ∀ e ∈ entries, 0 ≤ e.bits ∧ 0 ≤ e.refs := fun e inside => positive _ (List.mem_map_of_mem inside)
  have each : ∀ e ∈ entries, e.bits ≤ (entries.map LayoutEntry.bits).sum := by
    intro e inside
    refine List.single_le_sum (fun n found => ?_) _ (List.mem_map_of_mem inside)
    obtain ⟨f, member, rfl⟩ := List.mem_map.1 found
    exact (own f member).1
  have whole : offset + (entries.map LayoutEntry.bits).sum ≤ Text.largestInt := bits
  refine ⟨⟨?_, ?_, le_rfl, ?_⟩, fun e inside => (own e inside).1, whole⟩
  · intro l inside
    obtain ⟨e, found, rfl⟩ := List.mem_map.1 inside
    have part := each e found
    exact ⟨(own e found).1, by simp only [LayoutEntry.leaf]; omega⟩
  · intro l inside
    obtain ⟨e, found, rfl⟩ := List.mem_map.1 inside
    exact (own e found).2
  · rw [List.map_map]
    exact refs

/- Entries are the leaves of the members in order. Each stands right behind the one before it, or begins the next cell
because it does not fit; the first stands behind the offset. No cell holds more than it has room for, and each that
another one follows has a reference left for the link. The bits of a cell are what machine integers make of their sum,
and the sum itself while these can hold that of all bits. -/
theorem layoutGeometry {settings : Settings} (valid : settings.validate = .ok ())
    (machine : settings.vm.cellBits ≤ Text.largestInt) {offset : Int} {members : List (String × Ty)}
    (widths : Ty.WidthsOkAll (members.map Prod.snd)) {entries : List LayoutEntry}
    (few : (entries.length : Int) < Text.largestInt)
    (ok : layout settings.vm offset (members.map Prod.fst) (members.map Prod.snd) = .ok entries) :
    (entries.map fun e => (e.path, e.type, some (e.bits, e.refs))) =
      ((flatMembers members).map fun l => (l.1, l.2, l.2.leafSize? settings.vm)) ∧
    Geometry wrapped settings.vm offset entries ∧
    (offset + (entries.map LayoutEntry.bits).sum ≤ Text.largestInt → Geometry id settings.vm offset entries) := by
  obtain ⟨low, high, listed, sizes⟩ := layoutLeaves ok
  have limits := Settings.validLimits valid
  have told := membersTold listed
  rw [List.map_map] at told
  have range : ∀ e ∈ entries, 0 ≤ e.bits ∧ e.bits ≤ Text.largestInt ∧ 0 ≤ e.refs ∧ e.refs ≤ 1 := by
    intro e inside
    have size : (e.bits, e.refs) ∈ Ty.sizesAll settings.vm (members.map Prod.snd) := by
      rw [← sizes]
      exact List.mem_map.2 ⟨e, inside, rfl⟩
    have bounds := (Ty.sizesRange limits.2.1).2 _ widths _ size
    have small : 256 ≤ Text.largestInt := by decide
    simp only at bounds
    omega
  have countable : Leaf.Countable 0 (entries.map LayoutEntry.leaf) := by
    refine ⟨?_, ?_, le_rfl, ?_⟩
    · simpa [LayoutEntry.leaf] using fun e inside => ⟨(range e inside).1, (range e inside).2.1⟩
    · simpa [LayoutEntry.leaf] using fun e inside => (range e inside).2.2.1
    · have most := List.sum_le_card_nsmul (entries.map LayoutEntry.refs) 1
        (by simpa using fun e inside => (range e inside).2.2.2)
      simp only [List.length_map, nsmul_eq_mul, mul_one] at most
      rw [List.map_map]
      change 0 + (entries.map LayoutEntry.refs).sum < _
      omega
  obtain ⟨_, marks, _, -, -, -, filled⟩ := layoutFilled ok (by omega) countable
  have once (a b : Int) : wrapped (wrapped a + b) = wrapped (a + b) := by
    simp only [wrapped]
    omega
  refine ⟨told, filled.geometry once rfl (wrappedExact low (by omega)) ⟨low, high⟩ limits.1, fun bits => ?_⟩
  exact (filled.exact low (fun e inside => (range e inside).1) bits).geometry
    (fun _ _ => rfl) rfl rfl ⟨low, high⟩ limits.1

def crateMembers : List (String × Ty) :=
  [("count", .uint 8), ("boxes", .tuple [.cell, .cell, .struct "Pair" ["left", "right"] [.cell, .cell]]),
    ("open", .bool)]

def longest : Settings := { vm := { cellBits := Text.largestInt, addressBits := Text.largestInt } }

def addressPair : List (String × Ty) := [("from", .address), ("to", .address)]

theorem crateGeometry :
    (∃ entries, layout {} 1020 (crateMembers.map Prod.fst) (crateMembers.map Prod.snd) = .ok entries ∧
      entries.map (fun e => (e.path, e.cell, e.bitOffset)) = [("count", 1, 0), ("boxes.0", 1, 8), ("boxes.1", 1, 8),
        ("boxes.2.left", 1, 8), ("boxes.2.right", 2, 0), ("open", 2, 0)] ∧ Geometry id {} 1020 entries) ∧
    ∃ entries, layout longest.vm 0 (addressPair.map Prod.fst) (addressPair.map Prod.snd) = .ok entries ∧
      entries.map (fun e => (e.path, e.cell, e.bitOffset)) = [("from", 0, 0), ("to", 0, Text.largestInt)] ∧
      Geometry wrapped longest.vm 0 entries ∧ ¬Geometry id longest.vm 0 entries := by
  have few {entries : List LayoutEntry} {places : List (String × Int × Int)} (count : places.length ≤ 6)
      (same : entries.map (fun e => (e.path, e.cell, e.bitOffset)) = places) :
        (entries.length : Int) < Text.largestInt := by
    have size := congrArg List.length same
    rw [List.length_map] at size
    simp only [Text.largestInt]
    omega
  constructor
  · have placed : ((layout {} 1020 (crateMembers.map Prod.fst) (crateMembers.map Prod.snd)).toOption.map
        fun entries => (entries.map fun e => (e.path, e.cell, e.bitOffset), (entries.map LayoutEntry.bits).sum)) =
          some ([("count", 1, 0), ("boxes.0", 1, 8), ("boxes.1", 1, 8), ("boxes.2.left", 1, 8), ("boxes.2.right", 2, 0),
            ("open", 2, 0)], 9) := by decide +kernel
    obtain ⟨entries, found, seen⟩ := Option.map_eq_some_iff.1 placed
    obtain ⟨places, bits⟩ := Prod.mk.inj seen
    have ok := okOfOption found
    have widths : Ty.WidthsOkAll (crateMembers.map Prod.snd) := by
      simp [crateMembers, Ty.uint, Ty.WidthsOkAll, Ty.WidthsOk, Ty.WidthOk]
    have valid : Settings.validate {} = .ok () := rfl
    refine ⟨entries, ok, places, (layoutGeometry valid (by decide) widths (few (by decide) places) ok).2.2 ?_⟩
    rw [bits]
    decide
  · have placed : ((layout longest.vm 0 (addressPair.map Prod.fst) (addressPair.map Prod.snd)).toOption.map
        fun entries => (entries.map fun e => (e.path, e.cell, e.bitOffset), taken LayoutEntry.bits 0 0 0 entries)) =
          some ([("from", 0, 0), ("to", 0, Text.largestInt)], Text.largestInt + Text.largestInt) := by decide +kernel
    obtain ⟨entries, found, seen⟩ := Option.map_eq_some_iff.1 placed
    obtain ⟨places, bits⟩ := Prod.mk.inj seen
    have ok := okOfOption found
    have widths : Ty.WidthsOkAll (addressPair.map Prod.snd) := by
      simp [addressPair, Ty.WidthsOkAll, Ty.WidthsOk, Ty.WidthOk]
    have valid : longest.validate = .ok () := rfl
    refine ⟨entries, ok, places, (layoutGeometry valid (by decide) widths (few (by decide) places) ok).2.1, ?_⟩
    intro plain
    have within := plain.bits 0
    rw [bits] at within
    exact absurd within (by decide)

theorem Position.nextShared {p q : Position} {leaf : Leaf} {rest rest' : List Leaf} {opened : Bool}
    (listed : p.leaves = leaf :: rest) (follow : rest.isEmpty = rest'.isEmpty) (ok : p.next = .ok (opened, q)) :
    { p with leaves := leaf :: rest' }.next = .ok (opened, { q with leaves := rest' }) := by
  unfold next at ok ⊢
  simp only [listed, ← follow] at ok ⊢
  obtain ⟨⟨flag, r⟩, taken, ok⟩ := okOfBind ok
  cases ok
  generalize intSum leaf.refs _ = refs at taken ⊢
  have same : { p with leaves := rest' }.consume leaf.bits refs = .ok (flag, { r with leaves := rest' }) := by
    have fitting (leaves : List Leaf) : { p with leaves }.canFit leaf.bits refs ↔ p.canFit leaf.bits refs := Iff.rfl
    have opening (leaves : List Leaf) :
      { p with leaves, bits := 0, refs := 0, cells := p.cells + 1 }.canFit leaf.bits refs ↔
        Position.canFit ⟨p.capacity, 0, 0, 0, []⟩ leaf.bits refs := Iff.rfl
    simp only [consume, fitting, opening] at taken ⊢
    split_ifs at taken ⊢ <;> cases taken <;> rfl
  rw [same]
  rfl

theorem placeStable {leaves more more' : List Leaf} (follow : more ≠ []) (follow' : more' ≠ []) {p : Position}
    (listed : p.leaves = leaves ++ more) {entries entries' : List LayoutEntry}
    (ok : place (leaves ++ more) p = .ok entries)
    (ok' : place (leaves ++ more') { p with leaves := leaves ++ more' } = .ok entries') :
    entries.take leaves.length = entries'.take leaves.length := by
  induction leaves generalizing p entries entries' with
  | nil => simp
  | cons leaf leaves ih =>
    rw [List.cons_append] at listed ok ok'
    obtain ⟨⟨opened, q⟩, next, ok⟩ := okOfBind ok
    obtain ⟨rest, placed, ok⟩ := okOfBind ok
    obtain ⟨⟨opened', q'⟩, next', ok'⟩ := okOfBind ok'
    obtain ⟨rest', placed', ok'⟩ := okOfBind ok'
    cases ok
    cases ok'
    have alike : (leaves ++ more).isEmpty = (leaves ++ more').isEmpty := by
      rw [List.isEmpty_eq_false_iff.2 (by simp [follow]), List.isEmpty_eq_false_iff.2 (by simp [follow'])]
    have shared := Position.nextShared listed alike next
    cases Except.ok.inj (shared.symm.trans next')
    rw [List.length_cons, List.take_succ_cons, List.take_succ_cons, ih (Position.nextLeaves listed next) placed placed']

theorem Position.startShared {target : Target} {offset : Int} {names others : List String} {types types' : List Ty}
    {capacity : Capacity} {p q : Position} (one : start target offset names types capacity = .ok p)
    (two : start target offset others types' capacity = .ok q) : q = { p with leaves := q.leaves } := by
  obtain ⟨_, -, one⟩ := okOfBind one
  obtain ⟨leaves, -, one⟩ := okOfBind one
  obtain ⟨_, -, two⟩ := okOfBind two
  obtain ⟨leaves', -, two⟩ := okOfBind two
  cases one
  cases two
  rfl

/- Members that are appended leave the places of all leaves as they are, if there were leaves behind them before; else
they can move the last leaf alone. -/
theorem layoutStable {target : Target} {offset : Int} {ms ns ns' : List (String × Ty)}
    {entries entries' : List LayoutEntry}
    (ok : layout target offset ((ms ++ ns).map Prod.fst) ((ms ++ ns).map Prod.snd) = .ok entries)
    (ok' : layout target offset ((ms ++ ns').map Prod.fst) ((ms ++ ns').map Prod.snd) = .ok entries') :
    ((entries.take (flatMembers ms).length).map fun e => (e.path, e.type)) = flatMembers ms ∧
    (flatMembers ns ≠ [] → flatMembers ns' ≠ [] →
      entries.take (flatMembers ms).length = entries'.take (flatMembers ms).length) ∧
    (flatMembers ns' = [] →
      entries.take ((flatMembers ms).length - 1) = entries'.take ((flatMembers ms).length - 1)) := by
  obtain ⟨p, begun, placed⟩ := okOfBind ok
  obtain ⟨p', begun', placed'⟩ := okOfBind ok'
  obtain ⟨leaves, more, first, second, told⟩ := membersAppend (Position.startLeaves begun).2
  obtain ⟨again, more', first', second', told'⟩ := membersAppend (Position.startLeaves begun').2
  rw [first] at first'
  cases first'
  have start : p' = { p with leaves := p'.leaves } := Position.startShared begun begun'
  rw [told] at placed
  rw [start, told'] at placed'
  have paths := membersPaths first
  have count : leaves.length = (flatMembers ms).length := by rw [← paths, List.length_map]
  rw [← count]
  refine ⟨?_, fun follow follow' => ?_, fun last => ?_⟩
  · have own : (entries.take leaves.length).map LayoutEntry.leaf = leaves := by simp [List.map_take, placeTold placed]
    calc (entries.take leaves.length).map (fun e => (e.path, e.type))
        = ((entries.take leaves.length).map LayoutEntry.leaf).map fun l => (l.path, l.type) := by rw [List.map_map]; rfl
      _ = flatMembers ms := by rw [own, paths]
  · refine placeStable ?_ ?_ told placed placed'
    · rintro rfl
      exact follow (membersPaths second).symm
    · rintro rfl
      exact follow' (membersPaths second').symm
  · have none : more' = [] := by simpa [last] using membersPaths second'
    rw [none, List.append_nil] at placed'
    -- The last leaf of `ms` follows the others in both layouts.
    rcases List.eq_nil_or_concat leaves with rfl | ⟨before, leaf, rfl⟩
    · simp
    · rw [List.concat_eq_append, List.append_assoc] at placed told
      rw [List.concat_eq_append] at placed'
      rw [List.length_concat, Nat.add_sub_cancel]
      exact placeStable (by simp) (by simp) told placed placed'

def fourCells : List (String × Ty) := [("a", .cell), ("b", .cell), ("c", .cell), ("d", .cell)]

def cellsAndFlag : List (String × Ty) := fourCells ++ [("e", .bool)]

def cellsAndMore : List (String × Ty) := fourCells ++ [("e", .bool), ("f", .cell), ("g", .cell)]

def placesOf (members : List (String × Ty)) : Option (List LayoutEntry) :=
  (layout {} 0 (members.map Prod.fst) (members.map Prod.snd)).toOption

theorem fourCellsStable : ∃ bare flag more, placesOf (fourCells ++ []) = some bare ∧ placesOf cellsAndFlag = some flag ∧
    placesOf cellsAndMore = some more ∧ bare.map LayoutEntry.cell = [0, 0, 0, 0] ∧
    flag.map LayoutEntry.cell = [0, 0, 0, 1, 1] ∧ more.map LayoutEntry.cell = [0, 0, 0, 1, 1, 1, 1] ∧
    flag.take 3 = bare.take 3 ∧ flag.take 4 = more.take 4 := by
  have cells (members : List (String × Ty)) (numbers : List Int)
      (found : (placesOf members).map (·.map LayoutEntry.cell) = some numbers) :
      ∃ entries, placesOf members = some entries ∧ entries.map LayoutEntry.cell = numbers :=
    Option.map_eq_some_iff.1 found
  obtain ⟨bare, bareOk, bareCells⟩ := cells (fourCells ++ []) [0, 0, 0, 0] (by decide +kernel)
  obtain ⟨flag, flagOk, flagCells⟩ := cells cellsAndFlag [0, 0, 0, 1, 1] (by decide +kernel)
  obtain ⟨more, moreOk, moreCells⟩ := cells cellsAndMore [0, 0, 0, 1, 1, 1, 1] (by decide +kernel)
  refine ⟨bare, flag, more, bareOk, flagOk, moreOk, bareCells, flagCells, moreCells, ?_, ?_⟩
  · exact (layoutStable (okOfOption flagOk) (okOfOption bareOk)).2.2 rfl
  · refine (layoutStable (okOfOption flagOk) (okOfOption moreOk)).2.1 ?_ ?_
    · decide +kernel
    · decide +kernel

end CellChain
