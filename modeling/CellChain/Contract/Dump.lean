import CellChain.Contract.Basic
import CellChain.Program.Basic
/-! A dump of a unit for debugging: its pragmas, and for each contract the variables, the structs in full
and the functions. Structs are written field by field, six levels deep at most. -/
namespace CellChain.Dump

open Text (quote utf8)

def maxLevel : Nat := 6

def indent (level : Nat) : String := String.ofList (List.replicate (2 * level) ' ')

def stringValue (s : String) : String :=
  if s = "" then "(string) \"\"" else "(string) (len=" ++ toString (utf8 s).length ++ ") " ++ quote s

abbrev Lines := List String

def before (text : String) : Lines → Lines
  | [] => [text]
  | first :: rest => (text ++ first) :: rest

def after (text : String) : Lines → Lines
  | [] => [text]
  | [last] => [last ++ text]
  | first :: rest => first :: after text rest

def items (level : Nat) : List Lines → Lines
  | [] => []
  | [last] => before (indent level) last
  | item :: rest => before (indent level) (after "," item) ++ items level rest

def braces (opening closing : String) (level : Nat) (contents : Nat → List Lines) : Lines :=
  let inside :=
    if maxLevel < level + 1 then [indent (level + 1) ++ "<max depth reached>"]
    else items (level + 1) (contents (level + 1))
  opening :: inside ++ [indent level ++ closing]

def fieldLine (name : String) (value : Lines) : Lines := before (name ++ ": ") value

def object (kind : String) (level : Nat) (fields : Nat → List Lines) : Lines :=
  braces ("(*types." ++ kind ++ ")(\x7b") "\x7d)" level fields

def integerType (signed : Bool) (bits : Int) (level : Nat) : Lines :=
  object "IntegerType" level fun _ =>
    [["Bits: (int) " ++ toString bits], ["Signed: (bool) " ++ toString signed]]

def arrayType (element : Lines) (isByteArray : Bool) (name : String) : List Lines :=
  [fieldLine "Elem" element, ["IsByteArray: (bool) " ++ toString isByteArray],
   ["Name: " ++ stringValue name]]

def listValue (itemType : String) (count level : Nat) (contents : Nat → List Lines) : Lines :=
  if count = 0 then ["([]types." ++ itemType ++ ") <nil>"]
  else
    braces ("([]types." ++ itemType ++ ") (len=" ++ toString count ++ ") \x7b") "\x7d" level contents

mutual
def typeLines (level : Nat) : Ty → Lines
  | .integer signed bits => integerType signed bits level
  | .bool => object "BoolType" level fun _ => []
  | .cell => object "CellType" level fun _ => []
  | .address => object "AddressType" level fun _ => []
  | .other name => object "OtherType" level fun _ => [["Name: " ++ stringValue name]]
  | .mapping key value =>
    object "MappingType" level fun _ =>
      [fieldLine "Key" (typeLines (level + 1) key), fieldLine "Value" (typeLines (level + 1) value)]
  | .array element =>
    object "ArrayType" level fun _ => arrayType (typeLines (level + 1) element) false ""
  | .bytes name =>
    object "ArrayType" level fun _ => arrayType (integerType false 8 (level + 1)) true name
  | .struct name names types =>
    object "StructType" level fun _ =>
      [["Name: " ++ stringValue name],
       fieldLine "Members" (listValue "Member" types.length (level + 1) fun _ => memberLines (level + 2) names types)]
  | .named _ => ["(*types.StructType)(<already shown>)"]
  | .tuple types =>
    object "TupleType" level fun _ =>
      [fieldLine "Components" (listValue "Type" types.length (level + 1) fun _ => componentLines (level + 2) types)]

def memberLines (level : Nat) (names : List String) : List Ty → List Lines
  | [] => []
  | t :: rest =>
    braces "(types.Member) \x7b" "\x7d" level (fun _ =>
      [["Name: " ++ stringValue (names.headD "")], fieldLine "Type" (typeLines (level + 1) t)]) ::
    memberLines level names.tail rest

def componentLines (level : Nat) : List Ty → List Lines
  | [] => []
  | t :: rest => typeLines level t :: componentLines level rest
end

def functionLine (u : SourceUnit) (f : Function) : String :=
  let overrides := f.overrides.filterMap fun r => (u.function? r).map fun b => r.contract ++ "." ++ b.name
  "  " ++ f.kind.name ++ " " ++ f.signature?.getD "" ++ " id=" ++ Program.hexId f.id ++ " " ++
    f.visibility.name ++ " " ++ f.mutability.name ++ " inline=" ++ toString f.inline ++
    " overrides=[" ++ String.intercalate "," overrides ++ "]"

def contractLines (u : SourceUnit) (c : Contract) : List String :=
  ("contract " ++ c.name ++ " (linearized: " ++ String.intercalate " -> " c.linearized ++ ") @ " ++ c.place.text) ::
  c.state.map (fun v => "  var " ++ v.name ++ " " ++ v.type.text) ++
  (c.structs.flatMap fun t => (typeLines 0 t).map ("  " ++ ·)) ++
  c.functions.map (functionLine u)

end CellChain.Dump

namespace CellChain

def SourceUnit.dump (u : SourceUnit) : String :=
  let lines := u.pragmas.map Pragma.text ++ u.contracts.flatMap (Dump.contractLines u)
  String.join (lines.map (· ++ "\n"))

end CellChain
