import CellChain.Code.Instr
import CellChain.Text.Quoted
/-! Programs: the named code fragments of a contract, and their assembly listing. -/
namespace CellChain

inductive FragmentKind where
  | decode
  | encode
  | loadState
  | storeState
  | structDefault
  | structToBuilder
  | structOfSlice
  | unknown
  deriving DecidableEq, Repr

namespace FragmentKind

def name : FragmentKind → String
  | .decode => "decode"
  | .encode => "encode"
  | .loadState => "load_state"
  | .storeState => "store_state"
  | .structDefault => "default"
  | .structToBuilder => "to_builder"
  | .structOfSlice => "from_slice"
  | .unknown => "unknown"

def all : List FragmentKind :=
  [.decode, .encode, .loadState, .storeState, .structDefault, .structToBuilder, .structOfSlice]

def hasId : FragmentKind → Bool
  | .decode | .encode => true
  | _ => false

end FragmentKind

structure Fragment where
  name : String
  kind : FragmentKind
  id : UInt32
  args : Int
  rets : Int
  code : List Instr
  deriving Repr

structure Program where
  contract : String
  fragments : List Fragment
  deriving Repr

namespace Program

def fragment? (p : Program) (name : String) : Option Fragment := p.fragments.find? (·.name == name)

def hexId (id : UInt32) : String := "0x" ++ String.ofList (Text.hexPad 8 id.toNat)

def line (indent : Nat) (text : String) : String :=
  String.ofList (List.replicate indent '\t') ++ text ++ "\n"

mutual
def instrLines (indent : Nat) : Instr → String
  | .callRef _ _ body =>
    line indent "CALLREF \x7b" ++ codeLines (indent + 1) body ++ line indent "\x7d"
  | .pushInt x => line indent (Instr.pushInt x).text
  | .simple op operands => line indent (Instr.simple op operands).text

def codeLines (indent : Nat) : List Instr → String
  | [] => ""
  | i :: rest => instrLines indent i ++ codeLines indent rest
end

def fragmentLines (f : Fragment) : String :=
  let arity := toString f.args ++ " -> " ++ toString f.rets
  line 0 (".fragment " ++ f.name ++ ", " ++ f.kind.name) ++
  line 0 (if f.kind.hasId then "; id " ++ hexId f.id ++ ", " ++ arity else "; " ++ arity) ++
  line 0 (f.name ++ ":") ++
  codeLines 1 f.code

def listing (p : Program) : String :=
  line 0 ("; contract " ++ p.contract) ++
    String.join (p.fragments.map fun f => "\n" ++ fragmentLines f)

end Program

end CellChain
