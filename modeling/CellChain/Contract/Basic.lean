import CellChain.Digest.Sha256
import CellChain.Text.Decimal
import CellChain.Text.Quoted
import CellChain.Ty.Basic
/-! Contracts as the front end hands them over: declarations with their places in the sources, and the
inheritance already put in order. A function that declares no identifier takes the first four bytes of the
digest of its signature and the ABI version, with the top bit clear; answers set that bit. -/
namespace CellChain

structure Place where
  file : String
  line : Nat
  column : Nat
  deriving DecidableEq, Repr, Inhabited

def Place.text (p : Place) : String :=
  let spot := toString p.line ++ ":" ++ toString p.column
  if p.file = "" then spot else p.file ++ ":" ++ spot

inductive Visibility where
  | priv
  | internal
  | publ
  | external
  deriving DecidableEq, Repr

namespace Visibility

def name : Visibility → String
  | .priv => "private"
  | .internal => "internal"
  | .publ => "public"
  | .external => "external"

def all : List Visibility := [.priv, .internal, .publ, .external]

def ofName? (s : String) : Option Visibility := all.find? (·.name == s)

end Visibility

inductive Mutability where
  | nonpayable
  | pure
  | view
  | payable
  deriving DecidableEq, Repr

namespace Mutability

def name : Mutability → String
  | .nonpayable => "nonpayable"
  | .pure => "pure"
  | .view => "view"
  | .payable => "payable"

def all : List Mutability := [.nonpayable, .pure, .view, .payable]

def ofName? (s : String) : Option Mutability := all.find? (·.name == s)

end Mutability

inductive FunctionKind where
  | function
  | constructor
  | receive
  | fallback
  deriving DecidableEq, Repr

namespace FunctionKind

def name : FunctionKind → String
  | .function => "function"
  | .constructor => "constructor"
  | .receive => "receive"
  | .fallback => "fallback"

def all : List FunctionKind := [.function, .constructor, .receive, .fallback]

def ofName? (s : String) : Option FunctionKind := all.find? (·.name == s)

end FunctionKind

structure Variable where
  name : String
  type : Ty
  place : Place
  deriving Repr

structure FunctionRef where
  contract : String
  index : Nat
  deriving DecidableEq, Repr

structure Function where
  name : String
  kind : FunctionKind
  params : List Variable
  returns : List Variable
  visibility : Visibility
  mutability : Mutability
  inline : Bool
  id : UInt32
  overrides : List FunctionRef
  place : Place
  deriving Repr

def Function.isPublic (f : Function) : Bool := f.visibility = .publ || f.visibility = .external

structure Contract where
  name : String
  structs : List Ty
  state : List Variable
  functions : List Function
  linearized : List String
  place : Place
  deriving Repr

structure Pragma where
  tokens : List String
  place : Place
  deriving Repr

def Pragma.text (p : Pragma) : String := "pragma " ++ String.intercalate " " p.tokens

structure SourceUnit where
  pragmas : List Pragma
  contracts : List Contract
  place : Place
  deriving Repr

namespace SourceUnit

def contract? (u : SourceUnit) (name : String) : Option Contract :=
  u.contracts.find? (·.name == name)

def function? (u : SourceUnit) (r : FunctionRef) : Option Function := do
  (← u.contract? r.contract).functions[r.index]?

def baseFirst (u : SourceUnit) (c : Contract) : List Contract :=
  if c.linearized.isEmpty then [c] else (c.linearized.filterMap u.contract?).reverse

end SourceUnit

def typeList? (types : List Ty) : Option String :=
  (Ty.canonicals types).map (String.intercalate ",")

def signature? (name : String) (params returns : List Ty) : Option String := do
  some (name ++ "(" ++ (← typeList? params) ++ ")(" ++ (← typeList? returns) ++ ")")

def Function.signature? (f : Function) : Option String :=
  CellChain.signature? f.name (f.params.map Variable.type) (f.returns.map Variable.type)

def answerBit : UInt32 := 0x80000000

def functionId (signature : String) (version : Int) : UInt32 :=
  (Sha256.digest (Text.utf8 (signature ++ "v" ++ toString version))).headD 0 &&& ~~~answerBit

def Pragma.version? (p : Pragma) : Option Int :=
  match p.tokens with
  | ["AbiHeader", word] =>
    match word.toList with
    | 'v' :: digits => Text.integer? digits
    | _ => none
  | _ => none

def pragmaVersion? (pragmas : List Pragma) : Option Int := pragmas.findSome? Pragma.version?

end CellChain
