import CellChain.Machine.Cell
import CellChain.Text.Decimal
/-! Instructions: a mnemonic with its operands, as a listing shows them. The forms that take their
operands from the stack repeat them here; they size the stack effect and are not shown. -/
namespace CellChain

inductive Opcode where
  | null
  | newDict
  | drop
  | nip
  | swap
  | rot
  | rotRev
  | reverse
  | blkSwap
  | revX
  | blkSwX
  | tuple
  | untuple
  | index
  | setIndex
  | pair
  | unpair
  | tupleVar
  | untupleVar
  | indexVar
  | setIndexVar
  | newC
  | endC
  | stU
  | stI
  | stDict
  | stRef
  | stSlice
  | stBRefR
  | cToS
  | endS
  | ldU
  | ldI
  | ldDict
  | ldRef
  | ldSlice
  | ldRefRToS
  | pushRoot
  | popRoot
  | unknown (code : Int)
  deriving DecidableEq, Repr

namespace Opcode

def name : Opcode → String
  | .null => "NULL"
  | .newDict => "NEWDICT"
  | .drop => "DROP"
  | .nip => "NIP"
  | .swap => "SWAP"
  | .rot => "ROT"
  | .rotRev => "ROTREV"
  | .reverse => "REVERSE"
  | .blkSwap => "BLKSWAP"
  | .revX => "REVX"
  | .blkSwX => "BLKSWX"
  | .tuple => "TUPLE"
  | .untuple => "UNTUPLE"
  | .index => "INDEX"
  | .setIndex => "SETINDEX"
  | .pair => "PAIR"
  | .unpair => "UNPAIR"
  | .tupleVar => "TUPLEVAR"
  | .untupleVar => "UNTUPLEVAR"
  | .indexVar => "INDEXVAR"
  | .setIndexVar => "SETINDEXVAR"
  | .newC => "NEWC"
  | .endC => "ENDC"
  | .stU => "STU"
  | .stI => "STI"
  | .stDict => "STDICT"
  | .stRef => "STREF"
  | .stSlice => "STSLICE"
  | .stBRefR => "STBREFR"
  | .cToS => "CTOS"
  | .endS => "ENDS"
  | .ldU => "LDU"
  | .ldI => "LDI"
  | .ldDict => "LDDICT"
  | .ldRef => "LDREF"
  | .ldSlice => "LDSLICE"
  | .ldRefRToS => "LDREFRTOS"
  | .pushRoot => "PUSHROOT"
  | .popRoot => "POPROOT"
  | .unknown code => "op_" ++ toString code

def all : List Opcode :=
  [.null, .newDict, .drop, .nip, .swap, .rot, .rotRev, .reverse, .blkSwap, .revX, .blkSwX,
   .tuple, .untuple, .index, .setIndex, .pair, .unpair, .tupleVar, .untupleVar, .indexVar, .setIndexVar,
   .newC, .endC, .stU, .stI, .stDict, .stRef, .stSlice, .stBRefR,
   .cToS, .endS, .ldU, .ldI, .ldDict, .ldRef, .ldSlice, .ldRefRToS, .pushRoot, .popRoot]

def stackOperands : Opcode → Bool
  | .revX | .blkSwX | .tupleVar | .untupleVar | .indexVar | .setIndexVar => true
  | _ => false

end Opcode

inductive Instr where
  | pushInt (value : Word)
  | simple (op : Opcode) (operands : List Int)
  | callRef (arguments results : Int) (body : List Instr)
  deriving Repr

namespace Instr

def name : Instr → String
  | .pushInt _ => "PUSHINT"
  | .simple op _ => op.name
  | .callRef .. => "CALLREF"

def text : Instr → String
  | .pushInt value => "PUSHINT " ++ value.text
  | .callRef _ _ body => "CALLREF \x7b " ++ toString body.length ++ " instrs \x7d"
  | .simple op operands =>
    if operands.isEmpty || op.stackOperands then op.name
    else op.name ++ " " ++ String.intercalate ", " (operands.map toString)

def operand (operands : List Int) (k : Nat) : Int := operands.getD k 0

def ofCode (code : Int) (operands : List Int) : Instr :=
  if code = 0 then .pushInt 0
  else if code = 40 then .callRef (operand operands 0) (operand operands 1) []
  else if code < 0 then .simple (.unknown code) operands
  else .simple ((Opcode.all[code.toNat - 1]?).getD (.unknown code)) operands

def code? (mnemonic : String) : Option Int :=
  if mnemonic = "PUSHINT" then some 0
  else if mnemonic = "CALLREF" then some 40
  else
    match Opcode.all.findIdx? (fun op => op.name == mnemonic) with
    | some k => some (k + 1)
    | none =>
      match mnemonic.toList with
      | 'o' :: 'p' :: '_' :: digits => Text.integer? digits
      | _ => none

/-- How many entries an instruction takes from the stack and leaves on it. A call has no effect of its
own: it is declared where the call is made. -/
def effect? : Instr → Option (Int × Int)
  | .pushInt _ => some (0, 1)
  | .callRef .. => none
  | .simple op operands =>
    let a := operand operands 0
    let b := operand operands 1
    match op with
    | .null | .newDict | .newC | .pushRoot => some (0, 1)
    | .drop | .endS | .popRoot => some (1, 0)
    | .nip | .stU | .stI | .stDict | .stRef | .stSlice | .stBRefR | .pair | .setIndex => some (2, 1)
    | .swap => some (2, 2)
    | .rot | .rotRev => some (3, 3)
    | .reverse | .blkSwap => some (a + b, a + b)
    | .revX | .blkSwX => some (a + b + 2, a + b)
    | .tuple => some (a, 1)
    | .untuple => some (1, a)
    | .tupleVar => some (a + 1, 1)
    | .untupleVar => some (2, a)
    | .indexVar => some (2, 1)
    | .setIndexVar => some (3, 1)
    | .index | .endC | .cToS => some (1, 1)
    | .unpair | .ldU | .ldI | .ldDict | .ldRef | .ldSlice | .ldRefRToS => some (1, 2)
    | .unknown _ => none

end Instr

end CellChain
