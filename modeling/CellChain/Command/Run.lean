import CellChain.Command.Arguments
import CellChain.Contract.Check
import CellChain.Contract.Dump
import CellChain.Description.Unit
import CellChain.Layout.Position
import CellChain.Program.Lower
import CellChain.Settings.Read
import CellChain.Text.Grid
/-! What each command does with a workspace: what it prints, why it fails if it does, and the files after
it. -/
namespace CellChain.Command

def versionText : String := "tvmc version 0.2.0\n"

inductive Failure where
  | usage (error : UsageError)
  | settings (error : Settings.LoadError)
  | wordCount (count : Nat)
  | load (error : Description.LoadError)
  | noContract (name : String)
  | noContracts
  | noFunction (contract function : String)
  | abort (a : Abort)
  | invalid (count : Nat)
  | build (contract : String) (error : BuildError)

def Failure.message : Failure → String
  | .usage e => e.message
  | .settings e => e.notice.message
  | .wordCount count => "expected one contract description, got " ++ toString count ++ " arguments"
  | .load e => e.message
  | .noContract name => Text.joined [.own "no contract named ", .repeated (Text.quote name)]
  | .noContracts => "no contracts loaded"
  | .noFunction contract function =>
    Text.joined [.own "contract ", .repeated contract, .own " has no function ", .repeated (Text.quote function)]
  | .abort a => a.message
  | .invalid count => toString count ++ " contract(s) failed validation"
  | .build contract e => (Text.Notice.because [.own "contract ", .repeated contract] e.notice).message

/-- What a run has printed and written so far; it is kept when the run fails. -/
structure State where
  workspace : Workspace
  output : String := ""
  isTimed : Bool := false
  dump : String := ""

structure Outcome where
  state : State
  failure : Option Failure

def State.text (s : State) (time : String) : String :=
  if s.isTimed then s.output ++ "Compile time: " ++ time ++ "\n" else s.output

abbrev Job (α : Type) := EStateM Failure State α

def print (text : String) : Job Unit := modify fun s => { s with output := s.output ++ text }

def orFail {ε α : Type} (failure : ε → Failure) (x : Except ε α) : Job α :=
  match x with
  | .ok v => pure v
  | .error e => throw (failure e)

def readSettings (r : Request) : Job Settings := do
  if r.settings = "" then pure {} else orFail .settings (Settings.load (← get).workspace r.settings)

def start (r : Request) : Job (Settings × SourceUnit) := do
  let settings ← readSettings r
  match r.words with
  | [path] =>
    let u ← orFail .load (Description.load Description.decode (← get).workspace path)
    if r.debug then modify fun s => { s with dump := u.dump }
    pure (settings, u)
  | words => throw (.wordCount words.length)

def select (u : SourceUnit) (name : String) : Job (List Contract) :=
  if name = "" then pure u.contracts
  else
    match u.contract? name with
    | some c => pure [c]
    | none => throw (.noContract name)

def validate (settings : Settings) (u : SourceUnit) : List Contract → Job Nat
  | [] => pure 0
  | c :: rest => do
    let report := Check.run settings u c
    match report.abort with
    | some a => throw (.abort a)
    | none =>
      print (String.join (report.diagnostics.map fun d => d.text ++ "\n"))
      let failed ← validate settings u rest
      pure (if report.hasErrors then failed + 1 else failed)

def validateAll (settings : Settings) (u : SourceUnit) (contracts : List Contract) : Job Unit := do
  let failed ← validate settings u contracts
  if 0 < failed then throw (.invalid failed)

def check (r : Request) (contract : String) : Job Unit := do
  let (settings, u) ← start r
  let contracts ← select u contract
  validateAll settings u contracts
  print (toString contracts.length ++ " contract(s) OK\n")

def nameColumn (name : String) : String := name ++ String.ofList (List.replicate (16 - name.length) ' ')

def buildAll (settings : Settings) (u : SourceUnit) (directory : String) : List Contract → Job Unit
  | [] => pure ()
  | c :: rest => do
    if c.name ≠ settings.stdlib then
      let (program, path, w) ← orFail (.build c.name) ((← get).workspace.build settings.vm u c directory "")
      modify fun s => { s with workspace := w }
      print ("  " ++ nameColumn c.name ++ " " ++ path ++ " (" ++ toString program.fragments.length ++ " fragments)\n")
    buildAll settings u directory rest

def build (r : Request) (contract directory : String) : Job Unit := do
  let (settings, u) ← start r
  let contracts ← select u contract
  validateAll settings u contracts
  print "Build artifacts:\n"
  buildAll settings u directory contracts
  modify fun s => { s with isTimed := true }

def layoutHeadings : List String := ["MEMBER", "TYPE", "CELL", "BIT OFFSET", "BITS", "REFS"]

def layoutRow (e : LayoutEntry) : List String :=
  [e.path, e.type.text, toString e.cell, toString e.bitOffset, toString e.bits, toString e.refs]

def layoutContract (u : SourceUnit) (name : String) : Job Contract := do
  let name ← if name ≠ "" then pure name
    else match u.contracts.getLast? with
      | some c => pure c.name
      | none => throw .noContracts
  match u.contract? name with
  | some c => pure c
  | none => throw (.noContract name)

def layoutMembers (u : SourceUnit) (c : Contract) (function : String) : Job (List (String × Ty) × Int) :=
  if function = "" then pure (u.stateMembers c, 0)
  else
    match c.functions.find? (·.name == function) with
    | some f => pure (f.params.map fun p => (p.name, p.type), Lower.functionIdBits)
    | none => throw (.noFunction c.name function)

def showLayout (r : Request) (contract function : String) : Job Unit := do
  let (settings, u) ← start r
  let c ← layoutContract u contract
  let (members, offset) ← layoutMembers u c function
  let (names, types) := members.unzip
  let entries ← orFail .abort (layout settings.vm offset names types)
  print (Text.Grid.render layoutHeadings (entries.map layoutRow))

def perform (r : Request) : Job Unit :=
  match r.action with
  | .check contract => check r contract
  | .build contract directory => build r contract directory
  | .layout contract function => showLayout r contract function
  | .config => do print (← readSettings r).text
  | .version => print versionText
  | .help => pure ()

def run (w : Workspace) (words : List String) : Outcome :=
  match parse words with
  | .error e => ⟨{ workspace := w }, some (.usage e)⟩
  | .ok r =>
    match perform r { workspace := w } with
    | .ok _ s => ⟨s, none⟩
    | .error f s => ⟨s, some f⟩

def importsOf (w : Workspace) : List String :=
  w.files.flatMap fun (path, text) =>
    match Description.decode text with
    | .ok d => d.imports.map fun i => Path.join (Path.dir path) i.text
    | .error _ => []

def Action.directory? : Action → Option String
  | .build _ directory => some directory
  | _ => none

def wanted (w : Workspace) (words : List String) : List String :=
  match parse words with
  | .error _ => []
  | .ok r => (r.settings :: r.action.directory?.toList ++ r.words ++ importsOf w).flatMap Path.steps

end CellChain.Command
