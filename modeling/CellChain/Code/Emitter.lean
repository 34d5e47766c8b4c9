import CellChain.Abort
import CellChain.Code.Instr
import CellChain.Target
/-! Emitting code against a model of the stack. The model is the number of values on the stack; each
instruction applies its declared effect to it, so the model cannot drift from the code. A depth that differs
from what is expected aborts the compilation. -/
namespace CellChain

structure Block where
  code : List Instr
  entry : Int
  deriving Repr

structure Emitter where
  target : Target
  depth : Int
  block : Block
  outer : List Block
  deriving Repr

abbrev Emit (α : Type) := StateT Emitter (Except Abort) α

namespace Emitter

def start (target : Target) (depth : Int) : Emitter := ⟨target, depth, ⟨[], depth⟩, []⟩

def code (e : Emitter) : Except Abort (List Instr) := do
  require (e.outer = []) "stack pusher" (.openContinuations e.outer.length)
  .ok e.block.code

def append (e : Emitter) (i : Instr) : Emitter :=
  { e with block := { e.block with code := e.block.code ++ [i] } }

end Emitter

instance (blocks : List Block) : Decidable (blocks = []) :=
  match blocks with
  | [] => .isTrue rfl
  | _ :: _ => .isFalse nofun

namespace Emit

def check (condition : Prop) [Decidable condition] (construct : String) (cause : Abort.Cause) : Emit Unit :=
  fun e => if condition then .ok ((), e) else .error ⟨construct, cause⟩

def abort {α : Type} (construct : String) (cause : Abort.Cause) : Emit α :=
  fun _ => .error ⟨construct, cause⟩

def lift {α : Type} (x : Except Abort α) : Emit α := fun e => x.map (·, e)

def depth : Emit Int := fun e => .ok (e.depth, e)

def target : Emit Target := fun e => .ok (e.target, e)

def ensureDepth (expected : Int) (construct : String) : Emit Unit := fun e =>
  if e.depth = expected then .ok ((), e) else .error ⟨construct, .depthMismatch e.depth expected⟩

def instr (i : Instr) : Emit Unit := fun e =>
  match i.effect? with
  | none => .error ⟨i.name, .noStackEffect⟩
  | some (pops, pushes) =>
    if e.depth < pops then .error ⟨i.text, .underflow e.depth pops⟩
    else .ok ((), { e with depth := e.depth + (pushes - pops) }.append i)

def op (o : Opcode) (operands : List Int := []) : Emit Unit := instr (.simple o operands)

def pushInt (x : Word) : Emit Unit := instr (.pushInt x)

def pushSmall (n : Int) : Emit Unit := pushInt (BitVec.ofInt 256 n)

def drop : Emit Unit := op .drop
def nip : Emit Unit := op .nip
def swap : Emit Unit := op .swap
def rot : Emit Unit := op .rot
def rotRev : Emit Unit := op .rotRev

/- Operands up to these bounds are written in the instruction; larger ones go over the stack. -/

def maxReverseCount : Int := 17
def maxReverseOffset : Int := 15
def maxBlockSwap : Int := 16
def maxTupleImmediate : Int := 15
def maxTupleSize : Int := 255

def reverse (n i : Int) : Emit Unit := do
  check (2 ≤ n) "reverse" (.reversing n)
  if n ≤ maxReverseCount ∧ i ≤ maxReverseOffset then op .reverse [n, i]
  else do
    pushSmall n
    pushSmall i
    op .revX [n, i]

def blockSwap (i j : Int) : Emit Unit :=
  if i = 0 ∨ j = 0 then pure ()
  else if i = 1 ∧ j = 1 then swap
  else if i ≤ maxBlockSwap ∧ j ≤ maxBlockSwap then op .blkSwap [i, j]
  else do
    pushSmall i
    pushSmall j
    op .blkSwX [i, j]

def tupleOp (immediate onStack : Opcode) (k : Int) : Emit Unit := do
  check (0 ≤ k ∧ k ≤ maxTupleSize) immediate.name (.tupleOperand k)
  if k ≤ maxTupleImmediate then op immediate [k]
  else do
    pushSmall k
    op onStack [k]

def tuple (n : Int) : Emit Unit := tupleOp .tuple .tupleVar n

def untuple (n : Int) : Emit Unit := tupleOp .untuple .untupleVar n

def index (k : Int) : Emit Unit := tupleOp .index .indexVar k

def setIndex (k : Int) : Emit Unit := tupleOp .setIndex .setIndexVar k

def pair : Emit Unit := op .pair
def unpair : Emit Unit := op .unpair
def newBuilder : Emit Unit := op .newC
def endBuilder : Emit Unit := op .endC
def toSlice : Emit Unit := op .cToS
def endSlice : Emit Unit := op .endS
def pushRoot : Emit Unit := op .pushRoot
def popRoot : Emit Unit := op .popRoot

def startContinuation : Emit Unit := fun e =>
  .ok ((), { e with block := ⟨[], e.depth⟩, outer := e.block :: e.outer })

def callRef (arguments results : Int) : Emit Unit := fun e =>
  match e.outer with
  | [] => .error ⟨"CALLREF", .noContinuation⟩
  | parent :: outer =>
    if e.block.entry < arguments then .error ⟨"CALLREF", .tooFewArguments arguments e.block.entry⟩
    else if e.depth = e.block.entry - arguments + results then
      .ok ((), { e with block := parent, outer }.append (.callRef arguments results e.block.code))
    else .error ⟨"CALLREF", .depthMismatch e.depth (e.block.entry - arguments + results)⟩

end Emit

end CellChain
