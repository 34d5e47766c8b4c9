import CellChain.Code.Instr
import CellChain.Machine.Cell
import CellChain.Target
/-! The machine: a stack of values, the root of the persistent data, and the limits of a cell. Running
code ends normally or halts at an instruction with an exception. -/
namespace CellChain

inductive Fault where
  | stackUnderflow
  | rangeCheck
  | invalidOpcode
  | typeCheck
  | cellOverflow
  | cellUnderflow
  deriving DecidableEq, Repr

namespace Fault

def code : Fault → Nat
  | .stackUnderflow => 2
  | .rangeCheck => 5
  | .invalidOpcode => 6
  | .typeCheck => 7
  | .cellOverflow => 8
  | .cellUnderflow => 9

def name : Fault → String
  | .stackUnderflow => "stack underflow"
  | .rangeCheck => "range check error"
  | .invalidOpcode => "invalid opcode"
  | .typeCheck => "type check error"
  | .cellOverflow => "cell overflow"
  | .cellUnderflow => "cell underflow"

end Fault

/-- Why a run stopped. A fault names the instruction it is blamed on; while none is named, it is the one
being run. Storing an integer in more bits than a word has is no exception of the machine: it breaks it. -/
inductive Halt where
  | fault (kind : Fault) (site : Option Instr)
  | broken
  deriving Repr

namespace Halt

def blamedOn (i : Instr) : Halt → Halt
  | .fault kind none => .fault kind (some i)
  | h => h

def message : Halt → String
  | .fault kind site =>
    "vm exception " ++ toString kind.code ++ " (" ++ kind.name ++ ") at " ++ (site.map Instr.text).getD ""
  | .broken => "integer stored beyond the width of a word"

end Halt

structure Machine where
  stack : List Value
  root : Cell
  limits : Capacity
  executed : Nat
  deriving Repr

namespace Machine

def new (target : Target) : Machine := ⟨[], .empty, target.cell, 0⟩

/- A step may change the machine before it halts: what was popped is gone. -/
abbrev Step (α : Type) := EStateM Halt Machine α

def fault {α : Type} (kind : Fault) : Step α := throw (.fault kind none)

def push (v : Value) : Step Unit := modify fun m => { m with stack := v :: m.stack }

def pop : Step Value := fun m =>
  match m.stack with
  | [] => .error (.fault .stackUnderflow none) m
  | v :: rest => .ok v { m with stack := rest }

def popInt : Step Word := do
  match ← pop with
  | .int x => pure x
  | _ => fault .typeCheck

def popTuple : Step (List Value) := do
  match ← pop with
  | .tuple items => pure items
  | _ => fault .typeCheck

def popCell : Step Cell := do
  match ← pop with
  | .cell c => pure c
  | _ => fault .typeCheck

def popBuilder : Step Builder := do
  match ← pop with
  | .builder b => pure b
  | _ => fault .typeCheck

def popSlice : Step Slice := do
  match ← pop with
  | .slice s => pure s
  | _ => fault .typeCheck

def onStack (n : Nat) (f : List Value → List Value) : Step Unit := fun m =>
  if n ≤ m.stack.length then .ok () { m with stack := f m.stack }
  else .error (.fault .stackUnderflow none) m

def immediate (operands : List Int) (k : Nat) (low high : Int) : Step Nat :=
  let v := Instr.operand operands k
  if v < low ∨ high < v then fault .invalidOpcode else pure v.toNat

def popOperand (high : Nat) : Step Nat := do
  let x ← popInt
  if x.toNat ≤ high then pure x.toNat else fault .rangeCheck

def swapAt (i j : Nat) (stack : List Value) : List Value :=
  match stack[i]?, stack[j]? with
  | some v, some w => (stack.set i w).set j v
  | _, _ => stack

def swapInwards : Nat → Nat → List Value → List Value
  | n + 2, i, stack => swapInwards n (i + 1) (swapAt i (i + n + 1) stack)
  | _, _, stack => stack

def reverseEntries (n i : Nat) (stack : List Value) : List Value := swapInwards n i stack

def swapBlocks (i j : Nat) (stack : List Value) : List Value :=
  reverseEntries (i + j) 0 (reverseEntries i j (reverseEntries j 0 stack))

def reverse (n i : Nat) : Step Unit := onStack (n + i) (reverseEntries n i)

def blockSwap (i j : Nat) : Step Unit := onStack (i + j) (swapBlocks i j)

def rotate : List Value → List Value
  | c :: b :: a :: rest => a :: c :: b :: rest
  | stack => stack

def rotateBack : List Value → List Value
  | c :: b :: a :: rest => b :: a :: c :: rest
  | stack => stack

def tuple (n : Nat) : Step Unit :=
  onStack n fun stack => .tuple (stack.take n).reverse :: stack.drop n

def untuple (n : Nat) : Step Unit := do
  let items ← popTuple
  if items.length = n then modify fun m => { m with stack := items.reverse ++ m.stack }
  else fault .typeCheck

def index (k : Nat) : Step Unit := do
  let items ← popTuple
  match items[k]? with
  | some v => push v
  | none => fault .rangeCheck

def withMember (items : List Value) (k : Int) (v : Value) : Except Halt (List Value) :=
  if 0 ≤ k ∧ k < items.length then .ok (items.set k.toNat v)
  else .error (.fault .rangeCheck (some (.simple .setIndex [k])))

def setIndex (k : Nat) : Step Unit := do
  let v ← pop
  let items ← popTuple
  match withMember items k v with
  | .ok items => push (.tuple items)
  | .error h => throw h

def fitsUnsigned (x : Word) (n : Int) : Prop :=
  if 256 ≤ n then True else (x.bitLen : Int) ≤ n

def fitsSigned (x : Word) (n : Int) : Prop :=
  if 256 ≤ n then True
  else if n ≤ 0 then False
  else if 0 ≤ x.sign then (x.bitLen : Int) ≤ n - 1
  else ¬(1 : Word) <<< (n - 1).toNat < -x

instance (x : Word) (n : Int) : Decidable (fitsUnsigned x n) := by unfold fitsUnsigned; infer_instance
instance (x : Word) (n : Int) : Decidable (fitsSigned x n) := by unfold fitsSigned; infer_instance

/-- Whether a builder is within the limits of a cell. A negative number of bits is no limit. -/
def withinLimits (limits : Capacity) (b : Builder) : Prop :=
  (limits.bits < 0 ∨ (b.bits.length : Int) ≤ limits.bits) ∧ (b.refs.length : Int) ≤ limits.refs

instance (limits : Capacity) (b : Builder) : Decidable (withinLimits limits b) := by
  unfold withinLimits; infer_instance

def store (extend : Builder → Step Builder) : Step Unit := do
  let b ← extend (← popBuilder)
  let m ← get
  if withinLimits m.limits b then push (.builder b) else fault .cellOverflow

def storeInt (fits : Word → Prop) [DecidablePred fits] (n : Int) : Step Unit :=
  store fun b => do
    let x ← popInt
    if fits x then
      match b.storeWord? x n.toNat with
      | some b => pure b
      | none => throw .broken
    else fault .rangeCheck

def storeDict : Step Unit :=
  store fun b => do
    match ← pop with
    | .null => pure (b.storeBits [false])
    | .cell c => pure ((b.storeBits [true]).storeRef c)
    | _ => fault .typeCheck

def load (read : Slice → Option (Value × Slice)) : Step Unit := do
  match read (← popSlice) with
  | some (v, s) => do push v; push (.slice s)
  | none => fault .cellUnderflow

def readBits (n : Int) (s : Slice) : Option (List Bool × Slice) :=
  if n < 0 then none else s.take? n.toNat

def signExtend (x : Word) (n : Int) : Word :=
  if n = 0 ∨ 256 ≤ n ∨ (x.bitLen : Int) < n then x else x - (1 : Word) <<< n.toNat

def readUnsigned (n : Int) (s : Slice) : Option (Value × Slice) :=
  (readBits n s).map fun (bits, s) => (.int (Slice.bitsValue bits), s)

def readSigned (n : Int) (s : Slice) : Option (Value × Slice) :=
  (readBits n s).map fun (bits, s) => (.int (signExtend (Slice.bitsValue bits) n), s)

def readRef (s : Slice) : Option (Value × Slice) := s.ref?.map fun (c, s) => (.cell c, s)

def readDict (s : Slice) : Option (Value × Slice) :=
  match s.take? 1 with
  | some ([true], s) => readRef s
  | some (_, s) => some (.null, s)
  | none => none

def readSlice (n : Int) (s : Slice) : Option (Value × Slice) :=
  (readBits n s).map fun (bits, s) => (.slice (.ofCell (.mk bits [])), s)

def simple (op : Opcode) (operands : List Int) : Step Unit := do
  let width := Instr.operand operands 0
  match op with
  | .null | .newDict => push .null
  | .drop => do let _ ← pop
  | .nip => onStack 2 fun stack => stack.take 1 ++ stack.drop 2
  | .swap => reverse 2 0
  | .rot => onStack 3 rotate
  | .rotRev => onStack 3 rotateBack
  | .reverse => do
    let n ← immediate operands 0 2 17
    let i ← immediate operands 1 0 15
    reverse n i
  | .revX => do
    let i ← popOperand 255
    let n ← popOperand 255
    reverse n i
  | .blkSwap => do
    let i ← immediate operands 0 1 16
    let j ← immediate operands 1 1 16
    blockSwap i j
  | .blkSwX => do
    let j ← popOperand 255
    let i ← popOperand 255
    blockSwap i j
  | .tuple => do tuple (← immediate operands 0 0 15)
  | .tupleVar => do tuple (← popOperand 255)
  | .pair => tuple 2
  | .untuple => do untuple (← immediate operands 0 0 15)
  | .untupleVar => do untuple (← popOperand 255)
  | .unpair => untuple 2
  | .index => do index (← immediate operands 0 0 15)
  | .indexVar => do index (← popOperand 254)
  | .setIndex => do setIndex (← immediate operands 0 0 15)
  | .setIndexVar => do setIndex (← popOperand 254)
  | .newC => push (.builder .empty)
  | .endC => do push (.cell (← popBuilder).finish)
  | .stU => storeInt (fitsUnsigned · width) width
  | .stI => storeInt (fitsSigned · width) width
  | .stDict => storeDict
  | .stRef => store fun b => do pure (b.storeRef (← popCell))
  | .stSlice => store fun b => do pure (b.storeSlice (← popSlice))
  | .stBRefR => do
    let inner ← popBuilder
    store fun b => pure (b.storeRef inner.finish)
  | .cToS => do push (.slice (.ofCell (← popCell)))
  | .endS => do
    let s ← popSlice
    if s.isEmpty then pure () else fault .cellUnderflow
  | .ldU => load (readUnsigned width)
  | .ldI => load (readSigned width)
  | .ldDict => load readDict
  | .ldRef => load readRef
  | .ldSlice => load (readSlice width)
  | .ldRefRToS => do
    match (← popSlice).ref? with
    | some (c, s) => do push (.slice s); push (.slice (.ofCell c))
    | none => fault .cellUnderflow
  | .pushRoot => do push (.cell (← get).root)
  | .popRoot => do
    let c ← popCell
    modify fun m => { m with root := c }
  | .unknown _ => fault .typeCheck

def blaming (i : Instr) (step : Step Unit) : Step Unit := fun m =>
  match step m with
  | .ok a m => .ok a m
  | .error h m => .error (h.blamedOn i) m

def count : Step Unit := modify fun m => { m with executed := m.executed + 1 }

mutual
def step : Instr → Step Unit
  | .pushInt x => push (.int x)
  | .simple op operands => simple op operands
  | .callRef _ _ body => run body

def run : List Instr → Step Unit
  | [] => pure ()
  | i :: rest => do
    count
    blaming i (step i)
    run rest
end

end Machine

end CellChain
