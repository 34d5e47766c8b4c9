import CellChain.Settings.Basic
import CellChain.Text.Decimal
import CellChain.Text.Moment
import CellChain.Toml.Document
import CellChain.Workspace
/-! Reading settings files. What a file names replaces the default: a list as a whole, and the table of
deprecated intrinsics as a whole too. -/
namespace CellChain.Settings

open Toml (Field Fields)

inductive Kind where
  | number
  | text
  | texts
  | textMap
  | group (name : String)
  deriving DecidableEq, Repr

def Kind.name : Kind → String
  | .number => "int"
  | .text => "string"
  | .texts => "[]string"
  | .textMap => "map[string]string"
  | .group name => "config." ++ name

inductive ReadFault where
  | document (fault : Toml.Fault)
  | undefinedField (field owner : String)
  | mismatch (found : String) (kind : Kind) (needed : String)
  | outOfRange (digits : String)
  | floatRange (figures : String)
  | moment (written : String) (fault : Text.Moment.Fault)
  | mixedArray
  deriving Repr

def ReadFault.message : ReadFault → String
  | .document fault => fault.message
  | .undefinedField field owner =>
    "field '" ++ field ++ "' is not defined in config." ++ owner ++
      ", see https://pkg.go.dev/tvmc/internal/config#" ++ owner ++ " for available fields"
  | .mismatch found kind needed =>
    "cannot unmarshal TOML " ++ found ++ " into " ++ kind.name ++
      if needed = "" then "" else " (need " ++ needed ++ ")"
  | .outOfRange digits => "value " ++ digits ++ " is out of range for int"
  | .floatRange figures => "strconv.ParseFloat: parsing " ++ Text.quote figures ++ ": value out of range"
  | .moment written fault => fault.message written
  | .mixedArray => "array can't contain multiple types"

structure LineFault where
  line : Nat
  field : Option (String × String)
  fault : ReadFault
  deriving Repr

def LineFault.message (f : LineFault) : String :=
  let place := match f.field with
    | some (owner, field) => "(config." ++ owner ++ "." ++ field ++ ") "
    | none => ""
  "line " ++ toString f.line ++ ": " ++ place ++ f.fault.message

def valueName : Toml.Value → String
  | .string _ => "string"
  | .integer _ => "integer"
  | .float _ => "float"
  | .boolean => "boolean"
  | .datetime _ => "datetime"
  | .array _ => "array"
  | .table .. => "table"

def dateLayout : List Text.Moment.Part := [.year, .sign '-', .month true, .sign '-', .day true]

def timeLayout : List Text.Moment.Part := [.hour, .sign ':', .minute true, .sign ':', .second true, .fraction]

/-- What is wrong with a date or a time. A date with a time may have a zone; if it is no moment with one, the
zone is what is wrong, unless something before it is. -/
def momentFault? (written : String) : Option Text.Moment.Fault :=
  let fault? (layout : List Text.Moment.Part) : Option Text.Moment.Fault :=
    match Text.Moment.read layout written with
    | .ok _ => none
    | .error fault => some fault
  let both := dateLayout ++ [.sign 'T'] ++ timeLayout
  if !written.toList.contains ':' then fault? dateLayout
  else if !written.toList.contains '-' then fault? timeLayout
  else if (fault? (both ++ [.zone])).isNone then none
  else fault? both

def valueFault? : Toml.Value → Option ReadFault
  | .float figures => if (Text.fraction? figures.toList).isNone then some (.floatRange figures) else none
  | .datetime written => (momentFault? written).map (.moment written)
  | _ => none

def mismatch {α : Type} (v : Toml.Value) (kind : Kind) : Except ReadFault α :=
  let needed := match v with
    | .array _ => "slice"
    | _ => ""
  .error ((valueFault? v).getD (.mismatch (valueName v) kind needed))

def readNumber : Toml.Value → Except ReadFault Int
  | .integer digits =>
    match Text.integer? digits.toList with
    | some n => .ok n
    | none => .error (.outOfRange digits)
  | v => mismatch v .number

def readText : Toml.Value → Except ReadFault String
  | .string text => .ok (text.toOption.getD "")
  | v => mismatch v .text

def readTextItems (kind : String) : List Toml.Value → Except ReadFault (List String)
  | [] => .ok []
  | v :: rest => do
    if valueName v ≠ kind then .error .mixedArray
    let text ← readText v
    let texts ← readTextItems kind rest
    .ok (text :: texts)

def readTexts : Toml.Value → Except ReadFault (List String)
  | .array [] => .ok []
  | .array (v :: rest) => readTextItems (valueName v) (v :: rest)
  | v => mismatch v .texts

def fieldValue {α : Type} (owner name : String) (kind : Kind) (read : Toml.Value → Except ReadFault α) (f : Field) :
    Except LineFault α :=
  match f with
  | .value line v => (read v).mapError (⟨line, some (owner, name), ·⟩)
  | .table line _ _ => .error ⟨line, none, .mismatch "table" kind "struct or map"⟩
  | .tables _ =>
    if kind = .texts then .error ⟨f.line, none, .mismatch "table" .text "struct or map"⟩
    else .error ⟨f.line, some (owner, name), .mismatch "array table" kind "slice"⟩

def fieldTable (owner name : String) (kind : Kind) (f : Field) : Except LineFault Fields :=
  match f with
  | .table _ _ fields => .ok fields
  | .value line v => (mismatch v kind).mapError (⟨line, some (owner, name), ·⟩)
  | .tables _ => .error ⟨f.line, some (owner, name), .mismatch "array table" kind "slice"⟩

def undefined {α : Type} (owner name : String) (f : Field) : Except LineFault α :=
  .error ⟨f.line, none, .undefinedField name owner⟩

def each (step : String → Field → Settings → Except LineFault Settings) :
    Fields → Settings → Except LineFault Settings
  | [], s => .ok s
  | (name, f) :: rest, s => do each step rest (← step name f s)

def vmField (name : String) (f : Field) (s : Settings) : Except LineFault Settings :=
  let number := fieldValue "VMConfig" name .number readNumber f
  match name with
  | "CellBits" => do .ok { s with vm := { s.vm with cellBits := ← number } }
  | "CellRefs" => do .ok { s with vm := { s.vm with cellRefs := ← number } }
  | "ArrayKeyLength" => do .ok { s with vm := { s.vm with arrayKey := ← number } }
  | "AddressBits" => do .ok { s with vm := { s.vm with addressBits := ← number } }
  | "DictValueBits" => do .ok { s with vm := { s.vm with dictValueBits := ← number } }
  | _ => undefined "VMConfig" name f

def abiField (name : String) (f : Field) (s : Settings) : Except LineFault Settings :=
  match name with
  | "DefaultVersion" => do .ok { s with defaultVersion := ← fieldValue "ABIConfig" name .number readNumber f }
  | "StdlibContract" => do .ok { s with stdlib := ← fieldValue "ABIConfig" name .text readText f }
  | _ => undefined "ABIConfig" name f

def mapEntries : Fields → Except LineFault (List (String × String))
  | [] => .ok []
  | (name, f) :: rest => do
    let text ← match f with
      | .value line v => (readText v).mapError (⟨line, none, ·⟩)
      | .table line _ _ => .error ⟨line, none, .mismatch "table" .text "struct or map"⟩
      | .tables _ => .error ⟨f.line, none, .mismatch "array table" .text "slice"⟩
    let others ← mapEntries rest
    .ok ((name, text) :: others)

def intrinsicsField (name : String) (f : Field) (s : Settings) : Except LineFault Settings :=
  let owner := "IntrinsicsConfig"
  match name with
  | "Prefix" => do .ok { s with namePrefix := ← fieldValue owner name .text readText f }
  | "Deprecated" => do .ok { s with deprecated := ← mapEntries (← fieldTable owner name .textMap f) }
  | "Internal" => do .ok { s with internal := ← fieldValue owner name .texts readTexts f }
  | "StorageMutating" => do .ok { s with storageMutating := ← fieldValue owner name .texts readTexts f }
  | "DeployContract" => do .ok { s with deploy := ← fieldValue owner name .text readText f }
  | _ => undefined owner name f

def topField (name : String) (f : Field) (s : Settings) : Except LineFault Settings :=
  let table (owner : String) := fieldTable "Config" name (.group owner) f
  match name with
  | "VM" => do each vmField (← table "VMConfig") s
  | "ABI" => do each abiField (← table "ABIConfig") s
  | "Intrinsics" => do each intrinsicsField (← table "IntrinsicsConfig") s
  | _ => undefined "Config" name f

def ofText (text : String) : Except LineFault Settings :=
  match Toml.parse text with
  | .error (line, fault) => .error ⟨line, none, .document fault⟩
  | .ok fields => each topField fields {}

inductive LoadError where
  | opening (path : String) (error : FileError)
  | reading (path : String) (error : FileError)
  | decoding (path : String) (fault : LineFault)
  | invalid (path : String) (fault : Invalid)

def LoadError.notice : LoadError → Text.Notice
  | .opening path e => .because [.own "opening config ", .repeated path] e.notice
  | .reading path e => .because [.own "decoding config ", .repeated path] e.notice
  | .decoding path f =>
    .because [.own "decoding config ", .repeated path] (.foreign f.message [[.repeated f.message]])
  | .invalid path f => .because [.own "config ", .repeated path] (.plain [.own f.message])

def load (w : Workspace) (path : String) : Except LoadError Settings := do
  let text ← (w.read path).mapError fun e =>
    if e.kind = .isDirectory then .reading path e else .opening path e
  let s ← (ofText text).mapError (.decoding path)
  s.validate.mapError (.invalid path)
  .ok s

end CellChain.Settings
