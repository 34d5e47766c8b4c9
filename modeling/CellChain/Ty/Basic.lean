/-! Types of contract values: their printed form, their ABI form, comparison, and which of them can
be the key of a mapping. -/
namespace CellChain

inductive Category where
  | integer
  | bool
  | mapping
  | array
  | struct
  | tuple
  | cell
  | address
  | other
  deriving DecidableEq, Repr

namespace Category

def name : Category → String
  | .integer => "integer"
  | .bool => "bool"
  | .mapping => "mapping"
  | .array => "array"
  | .struct => "struct"
  | .tuple => "tuple"
  | .cell => "cell"
  | .address => "address"
  | .other => "other"

def all : List Category :=
  [.integer, .bool, .mapping, .array, .struct, .tuple, .cell, .address, .other]

end Category

/-- A resolved type. Widths are not restricted here: the reader of type expressions and the validator
refuse those that cannot be stored. The member names and member types of a struct run in parallel. A struct
that refers to itself through a mapping or an array is written out once; `named` stands for it inside. The names
of structs are texts, unless said otherwise. -/
inductive Ty (ν : Type := String) where
  | integer (signed : Bool) (bits : Int)
  | bool
  | mapping (key value : Ty ν)
  | array (element : Ty ν)
  | bytes (name : String)
  | struct (name : ν) (members : List String) (types : List (Ty ν))
  | named (name : ν)
  | tuple (types : List (Ty ν))
  | cell
  | address
  | other (name : String)
  deriving Repr, Inhabited

namespace Ty

abbrev uint {ν : Type} (bits : Int) : Ty ν := .integer false bits
abbrev int {ν : Type} (bits : Int) : Ty ν := .integer true bits

def category : Ty → Category
  | .integer .. => .integer
  | .bool => .bool
  | .mapping .. => .mapping
  | .array _ | .bytes _ => .array
  | .struct .. | .named _ => .struct
  | .tuple _ => .tuple
  | .cell => .cell
  | .address => .address
  | .other _ => .other

mutual
def write {ν τ : Type} [Append τ] (own : String → τ) (spell : ν → τ) : Ty ν → τ
  | .integer true bits => own ("int" ++ toString bits)
  | .integer false bits => own ("uint" ++ toString bits)
  | .bool => own "bool"
  | .mapping key value => own "mapping(" ++ write own spell key ++ own " => " ++ write own spell value ++ own ")"
  | .array element => write own spell element ++ own "[]"
  | .bytes name => own (if name = "" then "bytes" else name)
  | .struct name _ _ | .named name => own "struct " ++ spell name
  | .tuple types => own "tuple(" ++ writeAll own spell types ++ own ")"
  | .cell => own "TvmCell"
  | .address => own "address"
  | .other name => own name

def writeAll {ν τ : Type} [Append τ] (own : String → τ) (spell : ν → τ) : List (Ty ν) → τ
  | [] => own ""
  | [t] => write own spell t
  | t :: u :: rest => write own spell t ++ own "," ++ writeAll own spell (u :: rest)
end

def text : Ty → String := write id id

mutual
def canonical : Ty → Option String
  | .struct _ _ types | .tuple types => do
    some ("(" ++ String.intercalate "," (← canonicals types) ++ ")")
  | .named _ => none
  | .mapping key value => do some ("map(" ++ (← key.canonical) ++ "," ++ (← value.canonical) ++ ")")
  | .array element => do some ((← element.canonical) ++ "[]")
  | .bytes _ => some "bytes"
  | .cell => some "cell"
  | .integer true bits => some ("int" ++ toString bits)
  | .integer false bits => some ("uint" ++ toString bits)
  | .bool => some "bool"
  | .address => some "address"
  | .other name => some name

def canonicals : List Ty → Option (List String)
  | [] => some []
  | t :: rest => do some ((← t.canonical) :: (← canonicals rest))
end

def structName? {ν : Type} : Ty ν → Option ν
  | .struct name _ _ | .named name => some name
  | _ => none

/- Structural comparison, except that structs are compared by name and byte arrays are all alike. -/
mutual
def same : Ty → Ty → Bool
  | .integer s m, .integer t n => s == t && m == n
  | .bool, .bool | .cell, .cell | .address, .address | .bytes _, .bytes _ => true
  | .mapping k v, .mapping k' v' => same k k' && same v v'
  | .array e, .array e' => same e e'
  | .struct n _ _, u => u.structName? == some n
  | .named n, u => u.structName? == some n
  | .tuple ts, .tuple us => sameAll ts us
  | .other n, .other m => n == m
  | _, _ => false

def sameAll : List Ty → List Ty → Bool
  | [], [] => true
  | t :: ts, u :: us => same t u && sameAll ts us
  | _, _ => false
end

def keyWidth? : Ty → Option Int
  | .integer _ bits => if 8 ≤ bits ∧ bits ≤ 256 then some bits else none
  | _ => none

def isUint32 : Ty → Bool
  | .integer false bits => bits == 32
  | _ => false

end Ty

end CellChain
