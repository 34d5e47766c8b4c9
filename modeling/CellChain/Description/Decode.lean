import CellChain.Description.Basic
import CellChain.Text.Quoted
import CellChain.Text.Printable
import CellChain.Yaml.Node
import CellChain.Yaml.Scalar
/-! From the text of a file to a description. What is not of the expected shape is collected, in the order
of the file; nothing is taken from a file that has any such fault. -/
namespace CellChain.Description

open Yaml (Node Scalar Mark)

inductive Expected where
  | file
  | record
  | imports
  | pragmas
  | contracts
  | structs
  | declared
  | functions
  | names
  | text
  | truth
  | identifier
  deriving DecidableEq, Repr

def Expected.name : Expected → String
  | .file => "loader.fileDesc"
  | .record => "loader.plain"
  | .imports => "[]loader.importDesc"
  | .pragmas => "[]loader.pragmaDesc"
  | .contracts => "[]loader.contractDesc"
  | .structs => "[]loader.structDesc"
  | .declared => "[]loader.varDesc"
  | .functions => "[]loader.functionDesc"
  | .names => "[]string"
  | .text => "string"
  | .truth => "bool"
  | .identifier => "uint32"

inductive ShapeFault where
  | scalar (mark : Mark) (tag text : String) (expected : Expected)
  | sequence (mark : Mark) (expected : Expected)
  | mapping (mark : Mark) (expected : Expected)
  | repeatedKey (mark : Mark) (key : String) (first : Mark)
  deriving Repr

namespace ShapeFault

def shownWhole : Nat := 10
def shownPart : Nat := 7

def shown (text : String) : String :=
  let bytes := Text.utf8 text
  if bytes.length ≤ shownWhole then text else Text.ofBytes (bytes.take shownPart) ++ "..."

def message : ShapeFault → String
  | .scalar mark tag text expected =>
    "line " ++ toString (mark.line + 1) ++ ": cannot unmarshal " ++ tag ++ " `" ++ shown text ++ "` into " ++
      expected.name
  | .sequence mark expected =>
    "line " ++ toString (mark.line + 1) ++ ": cannot unmarshal !!seq into " ++ expected.name
  | .mapping mark expected =>
    "line " ++ toString (mark.line + 1) ++ ": cannot unmarshal !!map into " ++ expected.name
  | .repeatedKey mark key first =>
    "line " ++ toString (mark.line + 1) ++ ": mapping key " ++ Text.quote key ++ " already defined at line " ++
      toString (first.line + 1)

end ShapeFault

inductive MergeFault where
  | noMapping
  deriving DecidableEq, Repr

def MergeFault.message : MergeFault → String
  | .noMapping => "map merge requires map or sequence of maps as the value"

abbrev Shaped (α : Type) := StateT (List ShapeFault) (Except MergeFault) α

def report (faults : List ShapeFault) : Shaped Unit := modify (· ++ faults)

def keyText : Node → Nat × String
  | .scalar _ _ text => (0, text)
  | .sequence .. => (1, "")
  | .mapping .. => (2, "")

def repeatedKeys : List Node → List ShapeFault
  | [] => []
  | k :: rest =>
    (rest.filter fun other => keyText other == keyText k).map
      (fun other => .repeatedKey other.mark (keyText k).2 k.mark) ++ repeatedKeys rest

def mappingFaults (entries : List (Node × Node)) : List ShapeFault := repeatedKeys (entries.map Prod.fst)

def refuse (expected : Expected) (node : Node) : Shaped Unit :=
  match node with
  | .scalar mark quoted text =>
    match Scalar.resolve quoted text with
    | .null => pure ()
    | s => report [.scalar mark s.tag text expected]
  | .sequence mark _ => report [.sequence mark expected]
  | .mapping mark entries =>
    report (match mappingFaults entries with
      | [] => [.mapping mark expected]
      | faults => faults)

def text? (node : Node) : Shaped (Option String) :=
  match node with
  | .scalar _ quoted text =>
    match Scalar.resolve quoted text with
    | .null => pure none
    | _ => pure (some text)
  | _ => do
    refuse .text node
    pure none

def text (node : Node) : Shaped String := do return (← text? node).getD ""

def truthWords : List (String × Bool) :=
  (["y", "Y", "yes", "Yes", "YES", "on", "On", "ON"].map (·, true)) ++
    (["n", "N", "no", "No", "NO", "off", "Off", "OFF"].map (·, false))

def truth (node : Node) : Shaped Bool :=
  match node with
  | .scalar _ quoted text =>
    match Scalar.resolve quoted text, truthWords.lookup text with
    | .bool b, _ => pure b
    | .str, some b => pure b
    | _, _ => do
      refuse .truth node
      pure false
  | _ => do
    refuse .truth node
    pure false

def number? : Scalar → Option UInt32
  | .int n => if 0 ≤ n ∧ n < 4294967296 then some (UInt32.ofNat n.toNat) else none
  | .float x => if -1 < x && x < 4294967296 then some x.toUInt32 else none
  | _ => none

def identifier (node : Node) : Shaped (Option UInt32) :=
  match node with
  | .scalar _ quoted text =>
    match number? (Scalar.resolve quoted text) with
    | some n => pure (some n)
    | none => do
      refuse .identifier node
      pure none
  | _ => do
    refuse .identifier node
    pure none

def items {α : Type} (item : Node → Shaped (Option α)) : List Node → Shaped (List α)
  | [] => pure []
  | node :: rest => do
    let first ← item node
    let others ← items item rest
    pure (first.toList ++ others)

def list {α : Type} (expected : Expected) (item : Node → Shaped (Option α)) (node : Node) : Shaped (List α) :=
  match node with
  | .sequence _ nodes => items item nodes
  | _ => do
    refuse expected node
    pure []

def isMerge : Node → Bool
  | .scalar _ quoted text =>
    match Scalar.resolve quoted text with
    | .merge => true
    | _ => false
  | _ => false

def fields {α : Type} (field : String → Node → α → Shaped α) :
    List (Node × Node) → α × List String → Shaped (α × List String)
  | [], done => pure done
  | (key, value) :: rest, (record, given) => do
    if isMerge key then fields field rest (record, given)
    else
      match ← text? key with
      | some name =>
        if given.contains name then fields field rest (record, given)
        else fields field rest (← field name value record, name :: given)
      | none => fields field rest (record, given)

/- Sets the fields of a record from a mapping and then from those merged into it, which do not change what is
set already. The number bounds how deep mappings are merged. -/
def merged {α : Type} (field : String → Node → α → Shaped α) :
    Nat → List (Node × Node) → α × List String → Shaped (α × List String)
  | 0, _, done => pure done
  | n + 1, entries, done =>
    let one (done : α × List String) (node : Node) : Shaped (α × List String) :=
      match node with
      | .mapping _ entries => merged field n entries done
      | _ => throw .noMapping
    match mappingFaults entries with
    | [] => do
      let done ← fields field entries done
      match entries.find? fun (key, _) => isMerge key with
      | none => pure done
      | some (_, .sequence _ nodes) => nodes.foldlM one done
      | some (_, node) => one done node
    | faults => do
      report faults
      pure done

def record {α : Type} (expected : Expected) (start : Mark → α) (field : String → Node → α → Shaped α)
    (node : Node) : Shaped (Option α) :=
  match node with
  | .mapping mark entries => do return some (← merged field node.depth entries (start mark, [])).1
  | _ => do
    refuse expected node
    pure none

def textEntry (node : Node) : Shaped (Option TextEntry) := do
  return (← text? node).map (⟨·, node.mark⟩)

def variableField (key : String) (value : Node) (v : VariableEntry) : Shaped VariableEntry :=
  match key with
  | "name" => do return { v with name := ← text value }
  | "type" => do return { v with type := ← text value }
  | _ => pure v

def variableList (node : Node) : Shaped (List VariableEntry) :=
  list .declared (record .record (fun mark => { mark }) variableField) node

def structField (key : String) (value : Node) (s : StructEntry) : Shaped StructEntry :=
  match key with
  | "name" => do return { s with name := ← text value }
  | "members" => do return { s with members := ← variableList value }
  | _ => pure s

def functionField (key : String) (value : Node) (f : FunctionEntry) : Shaped FunctionEntry :=
  match key with
  | "name" => do return { f with name := ← text value }
  | "kind" => do return { f with kind := ← text value }
  | "visibility" => do return { f with visibility := ← text value }
  | "mutability" => do return { f with mutability := ← text value }
  | "inline" => do return { f with inline := ← truth value }
  | "override" => do return { f with overriding := ← truth value }
  | "id" => do return { f with id := ← identifier value }
  | "params" => do return { f with params := ← variableList value }
  | "returns" => do return { f with returns := ← variableList value }
  | _ => pure f

def contractField (key : String) (value : Node) (c : ContractEntry) : Shaped ContractEntry :=
  match key with
  | "name" => do return { c with name := ← text value }
  | "is" => do return { c with bases := ← list .names text? value }
  | "structs" => do
    return { c with structs := ← list .structs (record .record (fun mark => { mark }) structField) value }
  | "state" => do return { c with state := ← variableList value }
  | "functions" => do
    return { c with functions := ← list .functions (record .record (fun mark => { mark }) functionField) value }
  | _ => pure c

def fileField (key : String) (value : Node) (d : Description) : Shaped Description :=
  match key with
  | "imports" => do return { d with imports := ← list .imports textEntry value }
  | "pragmas" => do return { d with pragmas := ← list .pragmas textEntry value }
  | "contracts" => do
    return { d with contracts := ← list .contracts (record .record (fun mark => { mark }) contractField) value }
  | _ => pure d

inductive DecodeError where
  | syntaxError (error : Yaml.SyntaxError)
  | merge (fault : MergeFault)
  | shape (faults : List ShapeFault)
  deriving Repr

def DecodeError.message : DecodeError → String
  | .syntaxError e => "yaml: " ++ e.message
  | .merge fault => "yaml: " ++ fault.message
  | .shape faults => "yaml: unmarshal errors:\n  " ++ String.intercalate "\n  " (faults.map ShapeFault.message)

def decode (source : String) : Except DecodeError Description :=
  if source.toList.all Text.isBlank then .ok {}
  else
    match Node.parse source with
    | .error e => .error (.syntaxError e)
    | .ok none => .ok {}
    | .ok (some root) =>
      match (record .file (fun _ => ({} : Description)) fileField root).run [] with
      | .error fault => .error (.merge fault)
      | .ok (found, []) => .ok (found.getD {})
      | .ok (_, faults) => .error (.shape faults)

end CellChain.Description
