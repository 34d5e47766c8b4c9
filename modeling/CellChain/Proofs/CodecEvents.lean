import Mathlib
import CellChain.Proofs.Chains
/-! What code does to a chain of cells, instruction by instruction. The instructions that move values on the stack do
nothing to it; storing a leaf and loading it do the same, and so do opening a builder and following a link. -/
namespace CellChain

mutual
def Instr.events {ε : Type} (f : Opcode → List Int → List ε) : Instr → List ε
  | .pushInt _ => []
  | .simple op operands => f op operands
  | .callRef _ _ body => codeEvents f body

def codeEvents {ε : Type} (f : Opcode → List Int → List ε) : List Instr → List ε
  | [] => []
  | i :: rest => i.events f ++ codeEvents f rest
end

theorem eventsAppend {ε : Type} (f : Opcode → List Int → List ε) (a b : List Instr) :
    codeEvents f (a ++ b) = codeEvents f a ++ codeEvents f b := by
  induction a with
  | nil => rfl
  | cons i rest ih => rw [List.cons_append, codeEvents, codeEvents, ih, List.append_assoc]

def codeUses (o : Opcode) (code : List Instr) : Nat :=
  (codeEvents (fun op _ => if op = o then [()] else []) code).length

/- An event that one instruction stands for, and no other, tells how often it is there. -/
mutual
theorem Instr.usesCount {ε : Type} [DecidableEq ε] {f : Opcode → List Int → List ε} {o : Opcode} {x : ε}
    (once : ∀ op operands, (f op operands).count x = if op = o then 1 else 0) : (i : Instr) →
    (i.events f).count x = (i.events fun op _ => if op = o then [()] else []).length
  | .pushInt _ => by
    simp only [Instr.events]
    rfl
  | .simple op operands => by
    simp only [Instr.events, once]
    split <;> rfl
  | .callRef _ _ body => by
    simp only [Instr.events]
    exact usesCount once body

theorem usesCount {ε : Type} [DecidableEq ε] {f : Opcode → List Int → List ε} {o : Opcode} {x : ε}
    (once : ∀ op operands, (f op operands).count x = if op = o then 1 else 0) : (code : List Instr) →
    (codeEvents f code).count x = codeUses o code
  | [] => rfl
  | i :: rest => by
    have first := Instr.usesCount once i
    have later := usesCount once rest
    simp only [codeUses] at later
    simp only [codeUses, codeEvents, List.count_append, List.length_append, first, later]
end

namespace Emit

inductive Event where
  | opened
  | folded
  | integer (signed : Bool) (bits : Int)
  | dict
  | ref
  | slice
  deriving DecidableEq, Repr

def writes : Opcode → List Int → List Event
  | .newC, _ => [.opened]
  | .stBRefR, _ => [.folded]
  | .stI, operands => [.integer true (Instr.operand operands 0)]
  | .stU, operands => [.integer false (Instr.operand operands 0)]
  | .stDict, _ => [.dict]
  | .stRef, _ => [.ref]
  | .stSlice, _ => [.slice]
  | _, _ => []

def reads : Opcode → List Int → List Event
  | .ldRefRToS, _ => [.opened]
  | .ldI, operands => [.integer true (Instr.operand operands 0)]
  | .ldU, operands => [.integer false (Instr.operand operands 0)]
  | .ldDict, _ => [.dict]
  | .ldRef, _ => [.ref]
  | .ldSlice, _ => [.slice]
  | _, _ => []

end Emit

def Opcode.arranges : Opcode → Bool
  | .swap | .nip | .rotRev | .reverse | .revX | .blkSwap | .blkSwX => true
  | .pair | .unpair | .tuple | .tupleVar | .untuple | .untupleVar => true
  | _ => false

namespace Ty

mutual
def singles : Ty → List Ty
  | .struct _ _ types | .tuple types => singlesAll types
  | t => [t]

def singlesAll : List Ty → List Ty
  | [] => []
  | t :: rest => t.singles ++ singlesAll rest
end

theorem singlesGroup {t : Ty} {types : List Ty} (group : t.parts? = some types) : t.singles = singlesAll types := by
  cases t <;> cases group <;> simp only [singles]

theorem singlesSingle {t : Ty} (single : t.parts? = none) : t.singles = [t] := by
  cases t <;> cases single <;> simp only [singles]

def events : Ty → List Emit.Event
  | .integer signed bits => [.integer signed bits]
  | .bool => [.integer true 1]
  | .mapping .. => [.dict]
  | .array _ => [.integer false arrayLengthBits, .dict]
  | .bytes _ | .cell => [.ref]
  | .address => [.slice]
  | .struct .. | .named _ | .tuple _ | .other _ => []

end Ty

namespace Emit

variable {ε α β : Type} {f : Opcode → List Int → List ε}

def Shows (f : Opcode → List Int → List ε) (x : Emit α) (events : List ε) : Prop :=
  ∀ target, Writes target x fun _ _ code _ => codeEvents f code = events

namespace Shows

theorem same {x : Emit α} {a b : List ε} (shown : Shows f x a) (equal : a = b) : Shows f x b := equal ▸ shown

theorem pure {r : α} : Shows f (Pure.pure r) [] := fun _ => .pure fun _ => rfl

theorem bind {x : Emit α} {g : α → Emit β} {a b : List ε} (first : Shows f x a) (second : ∀ r, Shows f (g r) b) :
    Shows f (x >>= g) (a ++ b) := by
  intro target
  refine .bind (first target) ?_
  intro d r code m shown
  refine (second r target).mono ?_
  intro _ _ code' _ shown' _
  rw [eventsAppend, shown, shown']

theorem op {o : Opcode} {operands : List Int} : Shows f (Emit.op o operands) (f o operands) := by
  intro target
  refine .op fun _ _ => ?_
  simp only [codeEvents, Instr.events, List.append_nil]

theorem pushSmall {n : Int} : Shows f (Emit.pushSmall n) [] := by
  intro target
  refine (Writes.pushSmall n).mono ?_
  rintro _ _ _ _ ⟨rfl, -⟩
  simp only [codeEvents, Instr.events, List.append_nil]

theorem check {condition : Prop} [Decidable condition] {construct : String} {cause : Abort.Cause} :
    Shows f (Emit.check condition construct cause) [] := fun _ => .check fun _ _ => rfl

end Shows

section Arranging

variable (silent : ∀ o : Opcode, o.arranges = true → ∀ operands, f o operands = [])
include silent

theorem Shows.arranging {o : Opcode} {operands : List Int} (arranges : o.arranges = true) :
    Shows f (Emit.op o operands) [] :=
  .same .op (silent o arranges operands)

theorem Shows.countedTwice {o : Opcode} {operands : List Int} {n m : Int} (arranges : o.arranges = true) :
    Shows f (do Emit.pushSmall n; Emit.pushSmall m; Emit.op o operands) [] :=
  .bind .pushSmall fun _ => .bind .pushSmall fun _ => .arranging silent arranges

theorem reverseShows (n i : Int) : Shows f (reverse n i) [] := by
  unfold reverse
  refine .bind .check fun _ => ?_
  split
  · exact .arranging silent rfl
  · exact .countedTwice silent rfl

theorem blockSwapShows (i j : Int) : Shows f (blockSwap i j) [] := by
  unfold blockSwap
  split
  · exact .pure
  · split
    · exact .arranging silent rfl
    · split
      · exact .arranging silent rfl
      · exact .countedTwice silent rfl

theorem tupleOpShows {immediate onStack : Opcode} (n : Int) (one : immediate.arranges = true)
    (two : onStack.arranges = true) : Shows f (tupleOp immediate onStack n) [] := by
  unfold tupleOp
  refine .bind .check fun _ => ?_
  split
  · exact .arranging silent one
  · exact .bind .pushSmall fun _ => .arranging silent two

end Arranging

theorem writesSilent (o : Opcode) (arranges : o.arranges = true) (operands : List Int) : writes o operands = [] := by
  cases o <;> first | rfl | cases arranges

theorem readsSilent (o : Opcode) (arranges : o.arranges = true) (operands : List Int) : reads o operands = [] := by
  cases o <;> first | rfl | cases arranges

theorem breakShows (pending : Int) : Shows writes (Store.breakCell pending) [.opened] :=
  .bind (blockSwapShows writesSilent pending 1) fun _ => .op

theorem foldShows (n : Nat) : Shows writes (Store.fold n) (List.replicate n .folded) := by
  induction n with
  | zero => exact .pure
  | succ n ih => exact .bind .op fun _ => ih

theorem storeLeafShows (t : Ty) : Shows writes (Store.leaf t) t.events := by
  cases t with
  | integer signed bits => cases signed <;> exact .op
  | bool | mapping | bytes | cell | address => exact .op
  | array element =>
    exact .same (.bind .op fun _ => .bind .op fun _ => .bind .op fun _ => .bind .op fun _ => .bind .op fun _ => .op) rfl
  | struct | named | tuple | other => exact fun _ => .abort

theorem linkShows : Shows reads Load.followLink [.opened] := .bind .op fun _ => .op

theorem loadLeafShows (t : Ty) : Shows reads (Load.leaf t) t.events := by
  cases t with
  | integer signed bits => cases signed <;> exact .op
  | bool | mapping | bytes | cell => exact .op
  | address =>
    intro target
    refine .bind (.readTarget (Q := fun _ _ code _ => code = []) fun _ => rfl) ?_
    rintro _ there _ _ rfl
    exact (Shows.op (f := reads) target).mono fun _ _ _ _ shown _ => shown
  | array element =>
    exact .same (.bind .op fun _ => .bind .op fun _ => .bind .op fun _ => .bind .op fun _ => .op) rfl
  | struct | named | tuple | other => exact fun _ => .abort

def trail (types : List Ty) (marks : List Bool) : List Event :=
  (types.zip marks).flatMap fun leaf => (if leaf.2 then [.opened] else []) ++ leaf.1.events

theorem trailAppend {types more : List Ty} {marks others : List Bool} (count : marks.length = types.length) :
    trail (types ++ more) (marks ++ others) = trail types marks ++ trail more others := by
  rw [trail, List.zip_append count.symm, List.flatMap_append]
  rfl

/- A position goes through leaves of these types, and the code does to the chain what their marks say. -/
def Walks (f : Opcode → List Int → List Event) (types : List Ty) (p q : Position) (code : List Instr) : Prop :=
  ∃ marks, p.Placed marks q ∧ marks.length = types.length ∧ codeEvents f code = trail types marks

namespace Walks

variable {f : Opcode → List Int → List Event} {p q r : Position} {code code' : List Instr}

theorem nil : Walks f [] p p [] := ⟨[], .nil p, rfl, rfl⟩

theorem leaf {t : Ty} {opened : Bool} (next : p.next = .ok (opened, q))
    (broken : codeEvents f code = if opened then [.opened] else []) (data : codeEvents f code' = t.events) :
    Walks f [t] p q (code ++ code') := by
  refine ⟨[opened], .cons next (.nil q), rfl, ?_⟩
  rw [eventsAppend, broken, data]
  simp [trail]

theorem append {types more : List Ty} (first : Walks f types p q code) (second : Walks f more q r code') :
    Walks f (types ++ more) p r (code ++ code') := by
  obtain ⟨marks, placed, count, shown⟩ := first
  obtain ⟨marks', placed', count', shown'⟩ := second
  refine ⟨marks ++ marks', placed.append placed', ?_, ?_⟩
  · rw [List.length_append, List.length_append, count, count']
  · rw [eventsAppend, shown, shown', trailAppend count]

theorem silentBefore {types : List Ty} (walks : Walks f types p q code') (silent : codeEvents f code = []) :
    Walks f types p q (code ++ code') := by
  obtain ⟨marks, placed, count, shown⟩ := walks
  exact ⟨marks, placed, count, by rw [eventsAppend, silent, shown]; rfl⟩

theorem silentAfter {types : List Ty} (walks : Walks f types p q code) (silent : codeEvents f code' = []) :
    Walks f types p q (code ++ code') := by
  obtain ⟨marks, placed, count, shown⟩ := walks
  exact ⟨marks, placed, count, by rw [eventsAppend, silent, shown, List.append_nil]⟩

end Walks

end Emit

end CellChain
