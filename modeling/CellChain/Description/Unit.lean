import CellChain.Description.Sources
import CellChain.Description.Structs
import CellChain.Text.Printable
/-! From descriptions to a unit: names are resolved, types read, contracts put in order and overriding
functions linked. All faults are collected. -/
namespace CellChain.Description

abbrev Reviewed (α : Type) := StateM (List Complaint) α

def complain (place : Place) (fault : Fault) : Reviewed Unit := modify (· ++ [⟨place, fault⟩])

def each {α β : Type} (step : α → Reviewed β) : List α → Reviewed (List β)
  | [] => pure []
  | x :: rest => do
    let y ← step x
    let ys ← each step rest
    pure (y :: ys)

structure Located (α : Type) where
  path : String
  entry : α

/-- The contracts and structs that count: of several with one name the first. A contract keeps the structs
that were accepted from it. -/
structure Declared where
  contracts : List (Located ContractEntry) := []
  structs : List (Located StructEntry) := []

def declareStruct (path : String) (d : Declared) (s : StructEntry) : Reviewed (Declared × List StructEntry) :=
  match d.structs.find? (·.entry.name == s.name) with
  | some first => do
    complain (placeOf path s.mark) (.structTwice s.name (placeOf first.path first.entry.mark))
    pure (d, [])
  | none => pure ({ d with structs := d.structs ++ [⟨path, s⟩] }, [s])

def declareStructs (path : String) : List StructEntry → Declared → Reviewed (Declared × List StructEntry)
  | [], d => pure (d, [])
  | s :: rest, d => do
    let (d, own) ← declareStruct path d s
    let (d, others) ← declareStructs path rest d
    pure (d, own ++ others)

def declareContract (path : String) (d : Declared) (c : ContractEntry) : Reviewed Declared := do
  let place := placeOf path c.mark
  if c.name = "" then
    complain place .unnamedContract
    pure d
  else
    match d.contracts.find? (·.entry.name == c.name) with
    | some first =>
      complain place (.contractTwice c.name (placeOf first.path first.entry.mark))
      pure d
    | none =>
      let (d, own) ← declareStructs path c.structs d
      pure { d with contracts := d.contracts ++ [⟨path, { c with structs := own }⟩] }

def declareAll : List (Located ContractEntry) → Declared → Reviewed Declared
  | [], d => pure d
  | c :: rest, d => do declareAll rest (← declareContract c.path d c.entry)

def readType (declared : List String) (path : String) (v : VariableEntry) : Reviewed Ty :=
  let lookup (name : List UInt8) : Option Ty := (declared.find? fun n => Text.utf8 n == name).map Ty.named
  match Ty.parse lookup v.type with
  | .ok t => pure t
  | .error e => do
    complain (placeOf path v.mark) (.type v.type e)
    pure (.other v.type)

def readMembers (declared : List String) (path owner : String) :
    List String → List VariableEntry → Reviewed (List (String × Ty))
  | _, [] => pure []
  | seen, m :: rest =>
    if seen.contains m.name then do
      complain (placeOf path m.mark) (.memberTwice m.name owner)
      readMembers declared path owner seen rest
    else do
      let t ← readType declared path m
      let others ← readMembers declared path owner (m.name :: seen) rest
      pure ((m.name, t) :: others)

def readStruct (declared : List String) (s : Located StructEntry) : Reviewed StructDecl := do
  let (members, types) := (← readMembers declared s.path s.entry.name [] s.entry.members).unzip
  pure ⟨s.entry.name, members, types⟩

def reviewStructs (structs : List (Located StructEntry)) (table : List StructDecl) : Reviewed Unit :=
  match StructDecl.firstLoop? table with
  | none => pure ()
  | some s =>
    match structs.find? (·.entry.name == s.name) with
    | some found => complain (placeOf found.path found.entry.mark) (.selfContaining s.name)
    | none => pure ()

def readVariable (declared : List String) (table : List StructDecl) (path : String) (v : VariableEntry) :
    Reviewed Variable := do
  let t ← readType declared path v
  pure ⟨v.name, StructDecl.close table t, placeOf path v.mark⟩

def chosen {α : Type} (place : Place) (ofName? : String → Option α) (default : α) (fault : String → Fault)
    (word : String) : Reviewed α :=
  if word = "" then pure default
  else
    match ofName? word with
    | some x => pure x
    | none => do
      complain place (fault word)
      pure default

def readKind (place : Place) (f : FunctionEntry) : Reviewed FunctionKind :=
  if f.kind = "" then pure ((FunctionKind.ofName? f.name).getD .function)
  else chosen place FunctionKind.ofName? .function .unknownKind f.kind

def defaultVersion : Int := 2

def abiVersion (pragmas : List Pragma) : Int := (pragmaVersion? pragmas).getD defaultVersion

def readFunction (declared : List String) (table : List StructDecl) (version : Int) (path : String)
    (f : FunctionEntry) : Reviewed Function := do
  let place := placeOf path f.mark
  let kind ← readKind place f
  let visibility ← chosen place Visibility.ofName? .publ .unknownVisibility f.visibility
  let mutability ← chosen place Mutability.ofName? .nonpayable .unknownMutability f.mutability
  let params ← each (readVariable declared table path) f.params
  let returns ← each (readVariable declared table path) f.returns
  let signature := signature? f.name (params.map Variable.type) (returns.map Variable.type)
  let id := f.id.getD (functionId (signature.getD "") version)
  pure ⟨f.name, kind, params, returns, visibility, mutability, f.inline, id, [], place⟩

def readContract (declared : List String) (table : List StructDecl) (version : Int) (c : Located ContractEntry) :
    Reviewed Contract := do
  let state ← each (readVariable declared table c.path) c.entry.state
  let functions ← each (readFunction declared table version c.path) c.entry.functions
  let structs := c.entry.structs.map fun s => StructDecl.close table (.named s.name)
  pure ⟨c.entry.name, structs, state, functions, [], placeOf c.path c.entry.mark⟩

def putInOrder (graph : Lineage.Graph) : List Contract → Lineage.Progress → Reviewed (List Contract)
  | [], _ => pure []
  | c :: rest, p =>
    match Lineage.linearize graph c.name p with
    | .ok line p => do
      let others ← putInOrder graph rest p
      pure ({ c with linearized := line } :: others)
    | .error fault p => do
      complain c.place (.lineage fault)
      let others ← putInOrder graph rest p
      pure (c :: others)

def nearest? (contracts : List Contract) (c : Contract) (name : String) : Option FunctionRef :=
  c.linearized.findSome? fun n => do
    let owner ← contracts.find? (·.name == n)
    let k ← owner.functions.findIdx? fun f => f.name == name && f.kind == .function
    some ⟨n, k⟩

def overridden (contracts : List Contract) (name : String) : List FunctionRef → List String → List FunctionRef
  | found, [] => found
  | found, base :: rest =>
    match (contracts.find? (·.name == base)).bind fun b => nearest? contracts b name with
    | some r => overridden contracts name (if found.contains r then found else found ++ [r]) rest
    | none => overridden contracts name found rest

def linkFunction (contracts : List Contract) (bases : List String) (f : Function) (e : FunctionEntry) :
    Reviewed Function :=
  if e.overriding then do
    let refs := overridden contracts f.name [] bases
    if refs.isEmpty then complain f.place (.overridesNothing f.name)
    pure { f with overrides := refs }
  else pure f

def linkContract (contracts : List Contract) (c : Contract) (e : ContractEntry) : Reviewed Contract :=
  if c.linearized.isEmpty then pure c
  else do
    let functions ← each (fun (f, fe) => linkFunction contracts e.bases f fe) (c.functions.zip e.functions)
    pure { c with functions }

def assemble (sources : List Source) (main : Source) : Reviewed SourceUnit := do
  let pragmas := main.description.pragmas.map fun p => (⟨Text.words p.text, placeOf main.path p.mark⟩ : Pragma)
  let version := abiVersion pragmas
  let entries := sources.flatMap fun s => s.description.contracts.map (Located.mk s.path ·)
  let d ← declareAll entries {}
  let declared := d.structs.map (·.entry.name)
  let table ← each (readStruct declared) d.structs
  reviewStructs d.structs table
  let contracts ← each (readContract declared table version) d.contracts
  let graph := d.contracts.map fun c => (c.entry.name, c.entry.bases)
  let contracts ← putInOrder graph contracts {}
  let linked ← each (fun (c, e) => linkContract contracts c e) (contracts.zip (d.contracts.map Located.entry))
  pure ⟨pragmas, linked, ⟨main.path, 1, 1⟩⟩

inductive LoadError where
  | source (error : SourceError)
  | complaints (list : List Complaint)
  /-- A function that declares no identifier has a signature without end. -/
  | endlessSignature (function : String)

def endless? (sources : List Source) (u : SourceUnit) : Option String :=
  let entries := sources.flatMap fun s => s.description.contracts
  u.contracts.findSome? fun c => do
    let e ← entries.find? (·.name == c.name)
    let (f, _) ← (c.functions.zip e.functions).find? fun (f, fe) => fe.id.isNone && f.signature?.isNone
    some f.name

def load (decoder : Decoder) (w : Workspace) (path : String) : Except LoadError SourceUnit :=
  match sources decoder w path with
  | .error e => .error (.source e)
  | .ok p =>
    match p.complaints, p.sources.getLast? with
    | _ :: _, _ => .error (.complaints p.complaints)
    | [], none => .ok ⟨[], [], ⟨path, 1, 1⟩⟩
    | [], some main =>
      let (u, complaints) := (assemble p.sources main).run []
      match endless? p.sources u, complaints with
      | some f, _ => .error (.endlessSignature f)
      | none, [] => .ok u
      | none, _ => .error (.complaints complaints)

def LoadError.message : LoadError → String
  | .source e => e.notice.message
  | .complaints list => String.intercalate "\n" (list.map Complaint.text)
  | .endlessSignature f => "the signature of function " ++ Text.quote f ++ " has no end"

end CellChain.Description
