import CellChain.Toml.Grammar
import CellChain.Text.Quoted
/-! The tables of a settings file. A name is given once: as a value, as a table or as a list of tables. -/
namespace CellChain.Toml

inductive Field where
  | value (line : Nat) (v : Value)
  | table (line : Nat) (declared : Bool) (fields : List (String × Field))
  | tables (items : List (Nat × List (String × Field)))
  deriving Inhabited

abbrev Fields := List (String × Field)

def Field.line : Field → Nat
  | .value line _ | .table line _ _ => line
  | .tables items => (items.map Prod.fst).headD 0

inductive Fault where
  | syntaxFault
  | escape
  | keyTwice (key : String) (first : Nat)
  | keyOfTable (key : String) (first : Nat)
  | keyOnWay (key : String) (first : Nat)
  | tableTwice (name : String) (first : Nat)
  | tableOfKey (name : String) (first : Nat)
  | tableOfItems (name : String) (first : Nat)
  | itemOfTable (name : String) (first : Nat)
  | itemOfKey (name : String) (first : Nat)
  deriving Repr

def hexText (n : Nat) : String := String.ofList (Nat.toDigits 16 n)

def Fault.message : Fault → String
  | .syntaxFault => "invalid TOML syntax"
  | .escape => "invalid syntax"
  | .keyTwice key first => "key `" ++ key ++ "' is in conflict with line " ++ hexText first ++ "d"
  | .keyOfTable key first => "key `" ++ key ++ "' is in conflict with table in line " ++ toString first
  | .keyOnWay key first => "key `" ++ key ++ "' is in conflict with line " ++ toString first
  | .tableTwice name first => "table `" ++ name ++ "' is in conflict with table in line " ++ toString first
  | .tableOfKey name first => "table `" ++ name ++ "' is in conflict with line " ++ toString first
  | .tableOfItems name first =>
    "table `" ++ name ++ "' is in conflict with array table in line " ++ toString first
  | .itemOfTable name first =>
    "array table `" ++ name ++ "' is in conflict with table in line " ++ toString first
  | .itemOfKey name first => "array table `" ++ name ++ "' is in conflict with line " ++ toString first

namespace Fields

def put (name : String) (f : Field) : Fields → Fields
  | [] => [(name, f)]
  | (n, g) :: rest => if n = name then (name, f) :: rest else (n, g) :: put name f rest

def change (line : Nat) (update : Fields → Except Fault Fields) : List String → Fields → Except Fault Fields
  | [], fields => update fields
  | name :: rest, fields =>
    match fields.lookup name with
    | none => do .ok (put name (.table line false (← change line update rest [])) fields)
    | some (.table first declared inner) => do
      .ok (put name (.table first declared (← change line update rest inner)) fields)
    | some (.tables items) =>
      match items.getLast? with
      | none => .ok fields
      | some (first, inner) => do
        let inner ← change line update rest inner
        .ok (put name (.tables (items.dropLast ++ [(first, inner)])) fields)
    | some (.value first _) => .error (.keyOnWay name first)

def addTable (line : Nat) (declared : Bool) (written last : String) (fields : Fields) : Except Fault Fields :=
  match fields.lookup last with
  | none => .ok (put last (.table line declared []) fields)
  | some (.table _ false inner) => .ok (put last (.table line declared inner) fields)
  | some (.table first true _) => .error (.tableTwice written first)
  | some (.tables items) => .error (.tableOfItems written ((items.map Prod.fst).headD 0))
  | some (.value first _) => .error (.tableOfKey written first)

def addItem (line : Nat) (written last : String) (fields : Fields) : Except Fault Fields :=
  match fields.lookup last with
  | none => .ok (put last (.tables [(line, [])]) fields)
  | some (.tables items) => .ok (put last (.tables (items ++ [(line, [])])) fields)
  | some (.table first _ _) => .error (.itemOfTable written first)
  | some (.value first _) => .error (.itemOfKey written first)

def addValue (line : Nat) (key : String) (v : Value) (fields : Fields) : Except Fault Fields :=
  match fields.lookup key with
  | none => .ok (put key (.value line v) fields)
  | some (.value first _) => .error (.keyTwice key first)
  | some f => .error (.keyOfTable key f.line)

end Fields

inductive Part where
  | badEscape (line : Nat)
  | table (line : Nat) (pairs : List (Meant × Value × Nat))

mutual
def Value.parts : Value → List Part
  | .string (.error line) => [.badEscape line]
  | .table line pairs => [.table line pairs]
  | .array items => Value.allParts items
  | _ => []

def Value.allParts : List Value → List Part
  | [] => []
  | v :: rest => v.parts ++ Value.allParts rest
end

def Value.isArray : Value → Bool
  | .array _ => true
  | _ => false

def Part.isTable : Part → Bool
  | .table .. => true
  | .badEscape _ => false

/- A pair into the table at the end of a way. A table as a value is a table of its own, and tables in an array
make a list of tables; the rest of such an array does not count. The number bounds how deep they are nested. -/
def addPair : Nat → Bool → List String → Meant × Value × Nat → Fields → Except (Nat × Fault) Fields
  | 0, _, _, _, fields => .ok fields
  | _, _, _, (.error line, _, _), _ => .error (line, .escape)
  | depth + 1, inArray, way, (.ok key, v, line), fields => do
    let inTable (line : Nat) (update : Fields → Except Fault Fields) (fields : Fields) :
        Except (Nat × Fault) Fields :=
      (Fields.change line update way fields).mapError (line, ·)
    let isItem := inArray || v.isArray
    let fields ← v.parts.foldlM (fun fields part =>
      match part with
      | .badEscape line => .error (line, .escape)
      | .table line pairs => do
        let update := if isItem then Fields.addItem line key key else Fields.addTable line false key key
        pairs.foldlM (fun fields p => addPair depth isItem (way ++ [key]) p fields) (← inTable line update fields))
      fields
    if v.parts.any Part.isTable then .ok fields else inTable line (Fields.addValue line key v) fields

def names (keys : List Meant) : Except (Nat × Fault) (List String) :=
  (keys.mapM id).mapError (·, .escape)

def collect (depth : Nat) : List Statement → List String → Fields → Except (Nat × Fault) Fields
  | [], _, fields => .ok fields
  | .pair key v line :: rest, way, fields => do
    collect depth rest way (← addPair depth false way (key, v, line) fields)
  | .table keys written line :: rest, _, fields => do
    let keys ← names keys
    let update := Fields.addTable line true written (keys.getLastD "")
    collect depth rest keys (← (Fields.change line update keys.dropLast fields).mapError (line, ·))
  | .tableItem keys written line :: rest, _, fields => do
    let keys ← names keys
    let update := Fields.addItem line written (keys.getLastD "")
    collect depth rest keys (← (Fields.change line update keys.dropLast fields).mapError (line, ·))

def parse (text : String) : Except (Nat × Fault) Fields :=
  match statements text with
  | .error line => .error (line, .syntaxFault)
  | .ok list => collect (text.length + 1) list [] []

end CellChain.Toml
