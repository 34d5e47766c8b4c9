import Mathlib
import CellChain.Layout.Position
import CellChain.Proofs.Groups
import CellChain.Proofs.Reading
/-! Values of a type, and what they are written as: each leaf of a value is one piece of data, no larger than
the room that its type takes in a cell. -/
namespace CellChain

inductive Value.IsRoot : Value → Prop where
  | none : IsRoot .null
  | cell (c : Cell) : IsRoot (.cell c)

open Machine (valueCount)

mutual
inductive HasType (target : Target) : Ty → Value → Prop where
  | unsigned {bits : Int} {x : Word} (least : 1 ≤ bits) (most : bits ≤ 256)
      (fits : x.toNat < valueCount bits.toNat) : HasType target (.integer false bits) (.int x)
  | signed {bits : Int} {x : Word} (least : 1 ≤ bits) (most : bits ≤ 256)
      (above : -(valueCount (bits.toNat - 1) : Int) ≤ x.toInt) (below : x.toInt < valueCount (bits.toNat - 1)) :
      HasType target (.integer true bits) (.int x)
  | bool {x : Word} (flag : x = 0 ∨ x = -1) : HasType target .bool (.int x)
  | mapping {key value : Ty} {v : Value} (root : v.IsRoot) : HasType target (.mapping key value) v
  | array {element : Ty} {n : Word} {v : Value} (short : n.toNat < valueCount arrayLengthBits.toNat)
      (root : v.IsRoot) : HasType target (.array element) (.tuple [.int n, v])
  | bytes {name : String} (c : Cell) : HasType target (.bytes name) (.cell c)
  | cell (c : Cell) : HasType target .cell (.cell c)
  | address {s : Slice} (size : (s.bits.length : Int) = target.addressBits) (bare : s.refs = []) :
      HasType target .address (.slice s)
  | struct {name : String} {names : List String} {types : List Ty} {vs : List Value}
      (members : HaveTypes target types vs) : HasType target (.struct name names types) (.tuple vs)
  | tuple {types : List Ty} {vs : List Value} (members : HaveTypes target types vs) :
      HasType target (.tuple types) (.tuple vs)

inductive HaveTypes (target : Target) : List Ty → List Value → Prop where
  | nil : HaveTypes target [] []
  | cons {t : Ty} {types : List Ty} {v : Value} {vs : List Value} (first : HasType target t v)
      (rest : HaveTypes target types vs) : HaveTypes target (t :: types) (v :: vs)
end

theorem HaveTypes.length {target : Target} {types : List Ty} {vs : List Value} (typed : HaveTypes target types vs) :
    vs.length = types.length := by
  induction types generalizing vs with
  | nil => cases typed; rfl
  | cons t rest ih =>
    cases typed with
    | cons first others => simp [ih others]

theorem HasType.members {target : Target} {t : Ty} {types : List Ty} {v : Value} (group : t.parts? = some types)
    (typed : HasType target t v) : ∃ vs, v = .tuple vs ∧ HaveTypes target types vs := by
  cases typed with
  | struct members => cases group; exact ⟨_, rfl, members⟩
  | tuple members => cases group; exact ⟨_, rfl, members⟩
  | _ => cases group

theorem HasType.ofMembers {target : Target} {t : Ty} {types : List Ty} {vs : List Value}
    (group : t.parts? = some types) (members : HaveTypes target types vs) : HasType target t (.tuple vs) := by
  cases t <;> cases group
  · exact .struct members
  · exact .tuple members

namespace Ty

mutual
def sizes (target : Target) : Ty → List (Int × Int)
  | .struct _ _ types | .tuple types => sizesAll target types
  | t => (t.leafSize? target).toList

def sizesAll (target : Target) : List Ty → List (Int × Int)
  | [] => []
  | t :: rest => t.sizes target ++ sizesAll target rest
end

theorem sizesGroup {t : Ty} {types : List Ty} (group : t.parts? = some types) (target : Target) :
    t.sizes target = sizesAll target types := by
  cases t <;> cases group <;> simp only [sizes]

theorem sizesSingle {t : Ty} (single : t.parts? = none) (target : Target) :
    t.sizes target = (t.leafSize? target).toList := by
  cases t <;> cases single <;> simp only [sizes]

/- How many values a type spreads into on the stack: its leaves, and one for each empty struct or tuple. -/
mutual
def slots : Ty → Nat
  | .struct _ _ types | .tuple types => max 1 (slotsAll types)
  | _ => 1

def slotsAll : List Ty → Nat
  | [] => 0
  | t :: rest => t.slots + slotsAll rest
end

theorem slotsGroup {t : Ty} {types : List Ty} (group : t.parts? = some types) :
    t.slots = max 1 (slotsAll types) := by
  cases t <;> cases group <;> simp only [slots]

theorem slotsPositive (t : Ty) : 1 ≤ t.slots := by
  cases t <;> simp [slots]

theorem lengthLeSlots (types : List Ty) : types.length ≤ slotsAll types := by
  induction types with
  | nil => exact Nat.zero_le _
  | cons t rest ih =>
    have own := slotsPositive t
    simp only [List.length_cons, slotsAll]
    omega

theorem leavesLeSlots (target : Target) : (∀ t : Ty, (t.sizes target).length ≤ t.slots) ∧
    ∀ types, (sizesAll target types).length ≤ slotsAll types := by
  apply groupInduction
  · intro t single
    have own := slotsPositive t
    have one : (t.leafSize? target).toList.length ≤ 1 := by cases t.leafSize? target <;> simp
    rw [sizesSingle single]
    omega
  · intro t types group ih
    rw [sizesGroup group, slotsGroup group]
    omega
  · rfl
  · intro t rest one others
    simp only [sizesAll, slotsAll, List.length_append]
    omega

theorem leafRefs {target : Target} {t : Ty} {size : Int × Int} (leaf : t.leafSize? target = some size) :
    0 ≤ size.2 ∧ size.2 ≤ 1 := by
  cases t <;> cases leaf <;> simp

theorem sizesRefs (target : Target) : (∀ t : Ty, ∀ size ∈ t.sizes target, 0 ≤ size.2 ∧ size.2 ≤ 1) ∧
    ∀ types, ∀ size ∈ sizesAll target types, 0 ≤ size.2 ∧ size.2 ≤ 1 := by
  apply groupInduction
  · intro t single size inside
    rw [sizesSingle single] at inside
    exact leafRefs (Option.mem_toList.1 inside)
  · intro t types group ih
    rw [sizesGroup group]
    exact ih
  · exact List.forall_mem_nil _
  · intro t rest one others
    exact List.forall_mem_append.2 ⟨one, others⟩

def bitsAll (target : Target) (types : List Ty) : Int := ((sizesAll target types).map Prod.fst).sum

end Ty

def rootWire : Value → Builder
  | .cell c => .ofBits [true] ++ .ofCell c
  | _ => .ofBits [false]

def leafWire : Ty → Value → Builder
  | .integer _ bits, .int x => .ofBits (Builder.wordBits x bits.toNat)
  | .bool, .int x => .ofBits (Builder.wordBits x 1)
  | .mapping _ _, v => rootWire v
  | .array _, .tuple [.int n, v] => .ofBits (Builder.wordBits n arrayLengthBits.toNat) ++ rootWire v
  | .bytes _, .cell c | .cell, .cell c => .ofCell c
  | .address, .slice s => s.unread
  | _, _ => .empty

mutual
def wires : Ty → Value → List Builder
  | .struct _ _ types, .tuple vs => wiresAll types vs
  | .tuple types, .tuple vs => wiresAll types vs
  | t, v => [leafWire t v]

def wiresAll : List Ty → List Value → List Builder
  | t :: types, v :: vs => wires t v ++ wiresAll types vs
  | _, _ => []
end

theorem wiresGroup {t : Ty} {types : List Ty} (group : t.parts? = some types) (vs : List Value) :
    wires t (.tuple vs) = wiresAll types vs := by
  cases t <;> cases group <;> simp only [wires]

theorem wiresSingle {t : Ty} (single : t.parts? = none) (v : Value) : wires t v = [leafWire t v] := by
  cases t <;> cases single <;> simp only [wires]

structure Builder.Sized (b : Builder) (size : Int × Int) : Prop where
  bits : (b.bits.length : Int) = size.1
  refs : (b.refs.length : Int) ≤ size.2

theorem rootSized {v : Value} (root : v.IsRoot) : (rootWire v).Sized (1, 1) := by
  cases root <;> constructor <;> simp [rootWire, Builder.ofBits, Builder.ofCell]

theorem leafSized {target : Target} {t : Ty} {v : Value} (single : t.parts? = none) (typed : HasType target t v) :
    ∃ size, t.leafSize? target = some size ∧ (leafWire t v).Sized size := by
  cases typed with
  | unsigned least most fits | signed least most above below =>
    refine ⟨_, rfl, ?_, le_rfl⟩
    simp only [leafWire, Builder.ofBits, Builder.wordBitsLength]
    omega
  | bool flag => exact ⟨_, rfl, by simp [leafWire, Builder.ofBits], le_rfl⟩
  | mapping root => exact ⟨_, rfl, rootSized root⟩
  | array short root =>
    refine ⟨_, rfl, ?_, ?_⟩
    · simp [leafWire, Builder.ofBits, (rootSized root).bits, arrayLengthBits]
    · simp [leafWire, Builder.ofBits, (rootSized root).refs]
  | bytes c | cell c => exact ⟨_, rfl, rfl, le_rfl⟩
  | address size bare =>
    refine ⟨_, rfl, size, ?_⟩
    simp [leafWire, Slice.unread, bare]
  | struct members | tuple members => cases single

theorem wiresSized (target : Target) :
    (∀ t v, HasType target t v → List.Forall₂ Builder.Sized (wires t v) (t.sizes target)) ∧
    ∀ types vs, HaveTypes target types vs →
      List.Forall₂ Builder.Sized (wiresAll types vs) (Ty.sizesAll target types) := by
  apply Ty.groupInduction
  · intro t single v typed
    obtain ⟨size, found, sized⟩ := leafSized single typed
    rw [wiresSingle single, Ty.sizesSingle single, found]
    exact .cons sized .nil
  · intro t types group ih v typed
    obtain ⟨vs, rfl, members⟩ := typed.members group
    rw [wiresGroup group, Ty.sizesGroup group]
    exact ih vs members
  · intro vs typed
    cases typed
    exact .nil
  · intro t rest one others vs typed
    cases typed with
    | cons first following => exact List.rel_append (one _ first) (others _ following)

theorem zipWires {target : Target} {t : Ty} {v : Value} {marks : List Bool} (typed : HasType target t v)
    (count : marks.length = (Ty.sizesAll target [t]).length) (more : List Bool) (types : List Ty) (vs : List Value) :
    (marks ++ more).zip (wiresAll (t :: types) (v :: vs)) =
      marks.zip (wiresAll [t] [v]) ++ more.zip (wiresAll types vs) := by
  simp only [Ty.sizesAll, List.append_nil] at count
  simp only [wiresAll, List.append_nil]
  exact List.zip_append (by rw [((wiresSized target).1 t v typed).length_eq, count])

mutual
def Ty.bare : Ty → Ty
  | .struct _ _ types | .tuple types => .tuple (bareAll types)
  | .mapping key value => .mapping key.bare value.bare
  | .array element => .array element.bare
  | .bytes _ => .bytes ""
  | t => t

def Ty.bareAll : List Ty → List Ty
  | [] => []
  | t :: rest => t.bare :: bareAll rest
end

theorem bareGroup {t : Ty} {types : List Ty} (group : t.parts? = some types) : t.bare = .tuple (Ty.bareAll types) := by
  cases t <;> cases group <;> simp only [Ty.bare]

theorem bareSingle {t : Ty} (single : t.parts? = none) : t.bare.parts? = none := by
  cases t <;> cases single <;> simp only [Ty.bare, Ty.parts?]

theorem bareSizes (target : Target) : (∀ t : Ty, t.bare.sizes target = t.sizes target) ∧
    ∀ types, Ty.sizesAll target (Ty.bareAll types) = Ty.sizesAll target types := by
  apply Ty.groupInduction
  · intro t single
    rw [Ty.sizesSingle single, Ty.sizesSingle (bareSingle single)]
    cases t <;> cases single <;> simp only [Ty.bare, Ty.leafSize?]
  · intro t types group ih
    rw [bareGroup group, Ty.sizesGroup group, Ty.sizesGroup rfl, ih]
  · simp only [Ty.bareAll]
  · intro t rest one others
    simp only [Ty.bareAll, Ty.sizesAll, one, others]

theorem bareTypes (target : Target) : (∀ (t : Ty) v, HasType target t.bare v ↔ HasType target t v) ∧
    ∀ types vs, HaveTypes target (Ty.bareAll types) vs ↔ HaveTypes target types vs := by
  apply Ty.groupInduction
  · intro t single v
    cases t with
    | mapping key value =>
      rw [Ty.bare]
      constructor <;> intro typed <;> cases typed with
      | mapping root => exact .mapping root
    | array element =>
      rw [Ty.bare]
      constructor <;> intro typed <;> cases typed with
      | array short root => exact .array short root
    | bytes name =>
      rw [Ty.bare]
      constructor <;> intro typed <;> cases typed with
      | bytes c => exact .bytes c
    | struct name names types => cases single
    | tuple types => cases single
    | _ => simp only [Ty.bare]
  · intro t types group ih v
    rw [bareGroup group]
    constructor
    · intro typed
      obtain ⟨vs, rfl, members⟩ := typed.members rfl
      exact .ofMembers group ((ih vs).1 members)
    · intro typed
      obtain ⟨vs, rfl, members⟩ := typed.members group
      exact .tuple ((ih vs).2 members)
  · intro vs
    simp only [Ty.bareAll]
  · intro t rest one others vs
    rw [Ty.bareAll]
    constructor
    · intro typed
      cases typed with
      | cons first following => exact .cons ((one _).1 first) ((others _).1 following)
    · intro typed
      cases typed with
      | cons first following => exact .cons ((one _).2 first) ((others _).2 following)

theorem bareWires (target : Target) : (∀ (t : Ty) v, HasType target t v → wires t.bare v = wires t v) ∧
    ∀ types vs, HaveTypes target types vs → wiresAll (Ty.bareAll types) vs = wiresAll types vs := by
  apply Ty.groupInduction
  · intro t single v typed
    rw [wiresSingle single, wiresSingle (bareSingle single)]
    cases typed <;> cases single <;> simp only [Ty.bare, leafWire]
  · intro t types group ih v typed
    obtain ⟨vs, rfl, members⟩ := typed.members group
    rw [bareGroup group, wiresGroup group, wiresGroup rfl, ih vs members]
  · intro vs _
    simp only [Ty.bareAll]
  · intro t rest one others vs typed
    cases typed with
    | cons first following => simp only [Ty.bareAll, wiresAll, one _ first, others _ following]

namespace Value

mutual
def reread : Value → Value
  | .slice s => .slice (.ofCell s.rest)
  | .tuple items => .tuple (rereadAll items)
  | v => v

def rereadAll : List Value → List Value
  | [] => []
  | v :: rest => v.reread :: rereadAll rest
end

theorem rereadAllLength (vs : List Value) : (rereadAll vs).length = vs.length := by
  induction vs with
  | nil => rfl
  | cons v rest ih => simp [rereadAll, ih]

theorem IsRoot.rereadSelf {v : Value} (root : v.IsRoot) : v.reread = v := by
  cases root <;> rfl

end Value

mutual
theorem Cell.sameSelf : (c : Cell) → c.same c = true
  | .mk bits refs => by simp [Cell.same, Cell.sameAllSelf refs]

theorem Cell.sameAllSelf : (cs : List Cell) → Cell.sameAll cs cs = true
  | [] => by simp [Cell.sameAll]
  | c :: rest => by simp [Cell.sameAll, Cell.sameSelf c, Cell.sameAllSelf rest]
end

mutual
theorem Value.rereadSame : (v : Value) → v.reread.same v = true
  | .int x => by simp [Value.reread, Value.same]
  | .null => by simp [Value.reread, Value.same]
  | .cell c => by simp [Value.reread, Value.same, Cell.sameSelf]
  | .builder b => by simp [Value.reread, Value.same, Cell.sameSelf]
  | .slice s => by
    have again : (Slice.ofCell s.rest).rest = s.rest := rfl
    simp [Value.reread, Value.same, again, Cell.sameSelf]
  | .tuple items => by simp [Value.reread, Value.same, Value.rereadAllSame items]

theorem Value.rereadAllSame : (vs : List Value) → Value.sameAll (Value.rereadAll vs) vs = true
  | [] => by simp [Value.rereadAll, Value.sameAll]
  | v :: rest => by simp [Value.rereadAll, Value.sameAll, Value.rereadSame v, Value.rereadAllSame rest]
end

end CellChain
