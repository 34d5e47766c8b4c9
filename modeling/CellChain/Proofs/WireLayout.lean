import Mathlib
import CellChain.Proofs.LayoutGeometry
/-! A layout read as a description of a chain of cells: which leaves each cell holds, in which of its bits, and
which cell is linked to which. There is one such chain for given values, and placing the leaves builds it. -/
namespace CellChain

mutual
def leafValues : Ty → Value → List (Ty × Value)
  | .struct _ _ types, .tuple vs => leafValuesAll types vs
  | .tuple types, .tuple vs => leafValuesAll types vs
  | t, v => [(t, v)]

def leafValuesAll : List Ty → List Value → List (Ty × Value)
  | t :: types, v :: vs => leafValues t v ++ leafValuesAll types vs
  | _, _ => []
end

def wireOf (l : Ty × Value) : Builder := leafWire l.1 l.2

theorem leafValuesGroup {t : Ty} {types : List Ty} (group : t.parts? = some types) (vs : List Value) :
    leafValues t (.tuple vs) = leafValuesAll types vs := by
  cases t <;> cases group <;> simp only [leafValues]

theorem leafValuesSingle {t : Ty} (single : t.parts? = none) (v : Value) : leafValues t v = [(t, v)] := by
  cases t <;> cases single <;> simp only [leafValues]

theorem wiresOfLeaves (target : Target) :
    (∀ t v, HasType target t v → (leafValues t v).map wireOf = wires t v) ∧
    ∀ types vs, HaveTypes target types vs → (leafValuesAll types vs).map wireOf = wiresAll types vs := by
  apply Ty.groupInduction
  · intro t single v _
    rw [leafValuesSingle single, wiresSingle single]
    rfl
  · intro t types group ih v typed
    obtain ⟨vs, rfl, members⟩ := typed.members group
    rw [leafValuesGroup group, wiresGroup group, ih vs members]
  · intro vs typed
    cases typed
    rfl
  · intro t rest one others vs typed
    cases typed with
    | cons first following =>
      rw [leafValuesAll, wiresAll, List.map_append, one _ first, others _ following]

structure Leaf.Carries (leaf : Leaf) (l : Ty × Value) : Prop where
  type : leaf.type = l.1
  sized : (wireOf l).Sized (leaf.bits, leaf.refs)

theorem leafCarries {target : Target} {t : Ty} (single : t.parts? = none) {path : String} {leaves : List Leaf}
    (ok : t.leaves target path = .ok leaves) {v : Value} (typed : HasType target t v) :
    List.Forall₂ Leaf.Carries leaves [(t, v)] := by
  obtain ⟨size, found, sized⟩ := leafSized single typed
  have one : leaves = [⟨path, t, size.1, size.2⟩] := by
    cases t <;> cases single <;> simp only [Ty.leaves, found, Except.ok.injEq] at ok <;> exact ok.symm
  rw [one]
  exact .cons ⟨rfl, sized⟩ .nil

theorem leavesCarry (target : Target) :
    (∀ t path leaves v, Ty.leaves target path t = .ok leaves → HasType target t v →
      List.Forall₂ Leaf.Carries leaves (leafValues t v)) ∧
    ∀ types, (∀ path names leaves vs, Ty.memberLeaves target path names types = .ok leaves →
        HaveTypes target types vs → List.Forall₂ Leaf.Carries leaves (leafValuesAll types vs)) ∧
      ∀ names leaves vs, Ty.listLeaves target names types = .ok leaves → HaveTypes target types vs →
        List.Forall₂ Leaf.Carries leaves (leafValuesAll types vs) := by
  apply Ty.groupInduction
  · intro t single path leaves v ok typed
    rw [leafValuesSingle single]
    exact leafCarries single ok typed
  · intro t types group ih path leaves v ok typed
    obtain ⟨vs, rfl, members⟩ := typed.members group
    obtain ⟨names, opened⟩ := Position.leavesGroup group target path
    rw [opened] at ok
    rw [leafValuesGroup group]
    exact ih.1 path names leaves vs ok members
  · constructor
    · intro path names leaves vs ok typed
      rw [Ty.memberLeaves] at ok
      cases ok
      cases typed
      exact .nil
    · intro names leaves vs ok typed
      cases ok
      cases typed
      exact .nil
  · intro t rest one others
    constructor
    · intro path names leaves vs ok typed
      rw [Ty.memberLeaves] at ok
      obtain ⟨first, firstOk, ok⟩ := okOfBind ok
      obtain ⟨more, moreOk, ok⟩ := okOfBind ok
      cases ok
      cases typed with
      | cons head following => exact List.rel_append (one _ _ _ firstOk head) (others.1 _ _ _ _ moreOk following)
    · intro names leaves vs ok typed
      obtain ⟨first, firstOk, ok⟩ := okOfBind ok
      obtain ⟨more, moreOk, ok⟩ := okOfBind ok
      cases ok
      cases typed with
      | cons head following => exact List.rel_append (one _ _ _ firstOk head) (others.2 _ _ _ moreOk following)

def inCell (k : Int) : List (LayoutEntry × (Ty × Value)) → Builder
  | [] => .empty
  | (e, l) :: rest => if e.cell = k then wireOf l ++ inCell k rest else inCell k rest

def linkTo : Option Cell → Builder
  | some next => .ofCell next
  | none => .empty

/- A chain of cells, the first of which has the number `first` and begins with `head`, holds the leaves where the
entries say. -/
structure Laid (first : Int) (head : Builder) (entries : List LayoutEntry) (leaves : List (Ty × Value))
    (cells : List Cell) : Prop where
  types : entries.map LayoutEntry.type = leaves.map Prod.fst
  count : (cells.length : Int) = lastCell first entries - first + 1
  linked : ∀ (k : Nat) c next, cells[k]? = some c → cells[k + 1]? = some next → c.refs.getLast? = some next
  filled : ∀ (k : Nat) c, cells[k]? = some c →
    c = ((if k = 0 then head else .empty) ++ inCell (first + k) (entries.zip leaves) ++ linkTo cells[k + 1]?).finish
  bits : ∀ e l, (e, l) ∈ entries.zip leaves → (wireOf l).Sized (e.bits, e.refs) ∧ 0 ≤ e.bitOffset ∧ first ≤ e.cell ∧
    ∃ c, cells[(e.cell - first).toNat]? = some c ∧
      (c.bits.drop e.bitOffset.toNat).take e.bits.toNat = (wireOf l).bits

namespace Laid

variable {first : Int} {head : Builder} {entries : List LayoutEntry} {leaves : List (Ty × Value)} {cells : List Cell}
  {e : LayoutEntry} {l : Ty × Value}

theorem nil (first : Int) (head : Builder) : Laid first head [] [] [head.finish] := by
  refine ⟨rfl, by simp [lastCell], ?_, ?_, ?_⟩
  · intro k c next _ after
    simp at after
  · intro k c found
    cases k with
    | zero => cases found; simp [inCell, linkTo]
    | succ k => simp at found
  · intro e l inside
    cases inside

theorem inCellBefore (h : Laid first head entries leaves cells) {k : Int} (before : k < first) :
    inCell k (entries.zip leaves) = .empty := by
  have later : ∀ p ∈ entries.zip leaves, p.1.cell ≠ k := by
    intro p inside
    have := (h.bits p.1 p.2 inside).2.2.1
    omega
  generalize entries.zip leaves = placed at later
  induction placed with
  | nil => rfl
  | cons p rest ih =>
    obtain ⟨own, others⟩ := List.forall_mem_cons.1 later
    rw [inCell, if_neg own, ih others]

theorem bitsBehind {a b : Builder} (w : Builder) {n : Int} {size : Int × Int} (past : (a.bits.length : Int) = n)
    (sized : b.Sized size) : ((a ++ b ++ w).finish.bits.drop n.toNat).take size.1.toNat = b.bits := by
  have width := sized.bits
  have skipped : n.toNat = a.bits.length := by omega
  have taken : size.1.toNat = b.bits.length := by omega
  change ((a.bits ++ b.bits ++ w.bits).drop n.toNat).take size.1.toNat = b.bits
  simp [skipped, taken]

theorem stays {root : Cell} (h : Laid first (head ++ wireOf l) entries leaves cells) (begun : cells[0]? = some root)
    (type : e.type = l.1) (here : e.cell = first) (past : (head.bits.length : Int) = e.bitOffset)
    (sized : (wireOf l).Sized (e.bits, e.refs)) : Laid first head (e :: entries) (l :: leaves) cells := by
  refine ⟨by simp [type, h.types], ?_, h.linked, ?_, ?_⟩
  · rw [lastCons, here]
    exact h.count
  · intro k c found
    have filled := h.filled k c found
    cases k with
    | zero =>
      simp only [if_true, Nat.cast_zero, Int.add_zero, List.zip_cons_cons, inCell, here] at filled ⊢
      rw [← Builder.appendAssoc head]
      exact filled
    | succ k =>
      have other : e.cell ≠ first + (k + 1 : Nat) := by omega
      simp only [List.zip_cons_cons, inCell, if_neg other]
      exact filled
  · intro e' l' inside
    rw [List.zip_cons_cons, List.mem_cons] at inside
    rcases inside with same | later
    · cases same
      have filled := h.filled 0 root begun
      rw [if_pos rfl, Builder.appendAssoc] at filled
      refine ⟨sized, by omega, by omega, root, ?_, ?_⟩
      · rw [here, Int.sub_self]
        exact begun
      · rw [filled]
        exact bitsBehind _ past sized
    · exact h.bits e' l' later

theorem opens {next : Cell} (h : Laid (first + 1) (wireOf l) entries leaves cells) (begun : cells[0]? = some next)
    (type : e.type = l.1) (there : e.cell = first + 1) (offset : e.bitOffset = 0)
    (sized : (wireOf l).Sized (e.bits, e.refs)) :
    Laid first head (e :: entries) (l :: leaves) ((head ++ .ofCell next).finish :: cells) := by
  have bare : inCell first (entries.zip leaves) = .empty := h.inCellBefore (by omega)
  refine ⟨by simp [type, h.types], ?_, ?_, ?_, ?_⟩
  · have count := h.count
    rw [lastCons, there]
    push_cast [List.length_cons]
    omega
  · intro k c after found following
    cases k with
    | zero =>
      cases found
      rw [List.getElem?_cons_succ, begun] at following
      cases following
      simp [Builder.finish, Cell.refs, Builder.ofCell]
    | succ k => exact h.linked k c after found following
  · intro k c found
    cases k with
    | zero =>
      cases found
      have other : e.cell ≠ first := by omega
      simp [inCell, other, bare, begun, linkTo]
    | succ k =>
      have filled := h.filled k c found
      rw [List.zip_cons_cons, List.getElem?_cons_succ]
      cases k with
      | zero =>
        simp only [if_true, Nat.cast_zero, Int.add_zero] at filled
        simp only [inCell, there, Nat.zero_add, Nat.cast_one, if_true]
        exact filled
      | succ k =>
        have other : e.cell ≠ first + (k + 1 + 1 : Nat) := by omega
        have same : first + (k + 1 + 1 : Nat) = first + 1 + (k + 1 : Nat) := by omega
        simp only [inCell, if_neg other]
        rw [same]
        exact filled
  · intro e' l' inside
    rw [List.zip_cons_cons, List.mem_cons] at inside
    rcases inside with same | later
    · cases same
      have filled := h.filled 0 next begun
      rw [if_pos rfl] at filled
      refine ⟨sized, by omega, by omega, next, ?_, ?_⟩
      · have second : (e.cell - first).toNat = 1 := by omega
        rw [second]
        exact begun
      · rw [filled, offset, Builder.appendAssoc]
        exact bitsBehind (a := .empty) _ rfl sized
    · obtain ⟨sized', low, after, c, found, stands⟩ := h.bits e' l' later
      have shifted : (e'.cell - first).toNat = (e'.cell - (first + 1)).toNat + 1 := by omega
      refine ⟨sized', low, by omega, c, ?_, stands⟩
      rw [shifted]
      exact found

theorem unique {others : List Cell} (h : Laid first head entries leaves cells)
    (h' : Laid first head entries leaves others) : cells = others := by
  have alike : cells.length = others.length := by
    have one := h.count
    have two := h'.count
    omega
  -- The reference that ends a cell is the next cell, so cells are compared from the last one on.
  have last : ∀ n, ∀ k : Nat, cells.length ≤ k + n → cells[k]? = others[k]? := by
    intro n
    induction n with
    | zero =>
      intro k past
      rw [List.getElem?_eq_none (by omega), List.getElem?_eq_none (by omega)]
    | succ n ih =>
      intro k past
      have next := ih (k + 1) (by omega)
      by_cases inside : k < cells.length
      · have one := List.getElem?_eq_getElem inside
        have two := List.getElem?_eq_getElem (alike ▸ inside)
        rw [one, two, h.filled k _ one, h'.filled k _ two, next]
      · exact ih k (by omega)
  exact List.ext_getElem? fun k => last cells.length k (by omega)

end Laid

theorem Filled.laid {room : Capacity} {cell bits refs : Int} {marks : List Bool} {entries : List LayoutEntry}
    (filled : Filled id room cell bits refs marks entries) {values : List (Ty × Value)} {head : Builder}
    (carried : List.Forall₂ Leaf.Carries (entries.map LayoutEntry.leaf) values)
    (size : (head.bits.length : Int) = bits) :
    ∃ cells, cells[0]? = some (head ++ tape (marks.zip (values.map wireOf)) .empty).finish ∧
      Laid cell head entries values cells := by
  induction filled generalizing values head with
  | nil cell =>
    cases carried
    exact ⟨[head.finish], by simp [tape], .nil _ head⟩
  | @stays cell bits refs marks e rest here next fits more ih =>
    cases carried with
    | @cons _ l _ others carries following =>
      have width := carries.sized.bits
      simp only [LayoutEntry.leaf] at width
      have longer : ((head ++ wireOf l).bits.length : Int) = bits + e.bits := by
        rw [Builder.appendBits, List.length_append, Nat.cast_add, size, width]
      obtain ⟨chain, begun, holds⟩ := ih following longer
      refine ⟨chain, ?_, holds.stays begun carries.type here (size.trans next.symm) carries.sized⟩
      rw [begun, Builder.appendAssoc]
      rfl
  | opens there start full fits more ih =>
    cases carried with
    | cons carries following =>
      obtain ⟨chain, begun, holds⟩ := ih following carries.sized.bits
      exact ⟨_, rfl, holds.opens begun carries.type there start carries.sized⟩

theorem Position.startAlike {target : Target} {offset : Int} {names others : List String} {types : List Ty}
    {capacity : Capacity} {p q : Position} (one : start target offset names types capacity = .ok p)
    (two : start target offset others types capacity = .ok q) : p.Alike q := by
  obtain ⟨-, -, room, bits, refs, sizes⟩ := startOk one
  obtain ⟨-, -, room', bits', refs', sizes'⟩ := startOk two
  exact ⟨by rw [room, room'], by rw [bits, bits'], by rw [refs, refs'], by rw [sizes, sizes']⟩

theorem layoutLaid {target : Target} {offset : Int} {names others : List String} {types : List Ty}
    {entries : List LayoutEntry} (ok : layout target offset names types = .ok entries) {p : Position}
    (begun : Position.start target offset others types target.cell = .ok p) {marks : List Bool}
    (placed : ∃ q, p.Placed marks q ∧ q.done = true) (counted : Ty.Counted target offset types) {vs : List Value}
    (typed : HaveTypes target types vs) {head : Builder} (size : (head.bits.length : Int) = offset) :
    ∃ cells, cells[0]? = some (head ++ tape (marks.zip (wiresAll types vs)) .empty).finish ∧
      Laid 0 head entries (leafValuesAll types vs) cells := by
  obtain ⟨low, high, listed, sizes⟩ := layoutLeaves ok
  have whole := counted.sizes low (sizedPositive ((wiresSized target).2 types vs typed))
  have sums := whole.positive.sums
  have total := whole.bits
  obtain ⟨countable, bits, sum⟩ := entriesCountable sizes whole
  obtain ⟨p', marks', q', begun', placed', done', filled⟩ := layoutFilled ok (by omega) countable
  obtain ⟨q, placed, done⟩ := placed
  obtain rfl := Position.placedAlike (Position.startAlike begun begun') placed done placed' done'
  have carried := ((leavesCarry target).2 types).2 names _ vs listed typed
  have found := (filled.exact low bits sum).laid carried size
  rw [(wiresOfLeaves target).2 types vs typed] at found
  exact found

end CellChain
