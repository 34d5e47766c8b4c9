import CellChain.Contract.Basic
import CellChain.Contract.Lineage
import CellChain.Description.Decode
import CellChain.Ty.Parser
import CellChain.Workspace
/-! The files of a compilation: a description and all it imports, each once, imports before those who import
them. Files are told apart by their absolute path. -/
namespace CellChain.Description

inductive Fault where
  | circularImport (chain : List String)
  | unnamedContract
  | contractTwice (name : String) (first : Place)
  | structTwice (name : String) (first : Place)
  | memberTwice (name owner : String)
  | type (source : String) (error : Ty.ParseError)
  | selfContaining (name : String)
  | unknownKind (name : String)
  | unknownVisibility (name : String)
  | unknownMutability (name : String)
  | lineage (fault : Lineage.Fault)
  | overridesNothing (name : String)

def Fault.message : Fault → String
  | .circularImport chain => "circular import detected: " ++ String.intercalate " -> " chain
  | .unnamedContract => "contract without a name"
  | .contractTwice name first => "contract " ++ Text.quote name ++ " already declared at " ++ first.text
  | .structTwice name first => "struct " ++ Text.quote name ++ " already declared at " ++ first.text
  | .memberTwice name owner => "duplicate member " ++ Text.quote name ++ " in struct " ++ owner
  | .type source error => error.message source
  | .selfContaining name => "struct " ++ name ++ " contains itself"
  | .unknownKind name => "unknown function kind " ++ Text.quote name
  | .unknownVisibility name => "unknown visibility " ++ Text.quote name
  | .unknownMutability name => "unknown state mutability " ++ Text.quote name
  | .lineage fault => fault.notice.message
  | .overridesNothing name => "function " ++ Text.quote name ++ " is marked override but overrides nothing"

structure Complaint where
  place : Place
  fault : Fault

def Complaint.text (c : Complaint) : String := c.place.text ++ ": " ++ c.fault.message

inductive SourceError where
  | reading (path : String) (error : FileError)
  | decoding (path : String) (error : DecodeError)

def SourceError.notice : SourceError → Text.Notice
  | .reading path e => .because [.own "reading contract description ", .repeated path] e.notice
  | .decoding path e =>
    .because [.own "decoding contract description ", .repeated path] (.foreign e.message [[.repeated e.message]])

structure Source where
  path : String
  description : Description

def placeOf (path : String) (mark : Yaml.Mark) : Place := ⟨path, mark.line + 1, mark.column + 1⟩

structure Progress where
  resolved : List String := []
  sources : List Source := []
  complaints : List Complaint := []

def visitImports (visit : String → Place → Progress → Except SourceError Progress) (path : String) :
    List TextEntry → Progress → Except SourceError Progress
  | [], p => .ok p
  | i :: rest, p => do
    let p ← visit (Path.join (Path.dir path) i.text) (placeOf path i.mark) p
    visitImports visit path rest p

abbrev Decoder := String → Except DecodeError Description

/- Visits a file and then is done with it: `stack` holds the files whose imports are being visited, the
outermost first, and the number bounds how many more can be among them. -/
def visit (decoder : Decoder) (w : Workspace) : Nat → List String → String → Place → Progress →
    Except SourceError Progress
  | 0, _, _, _, p => .ok p
  | n + 1, stack, path, importer, p => do
    let absolute := w.absolute path
    if stack.contains absolute then
      .ok { p with complaints := p.complaints ++ [⟨importer, .circularImport (stack ++ [absolute])⟩] }
    else if p.resolved.contains absolute then .ok p
    else
      let source ← (w.read path).mapError (.reading path)
      let description ← (decoder source).mapError (.decoding path)
      let p := { p with resolved := absolute :: p.resolved }
      let p ← visitImports (visit decoder w n (stack ++ [absolute])) path description.imports p
      .ok { p with sources := p.sources ++ [⟨path, description⟩] }

def sources (decoder : Decoder) (w : Workspace) (path : String) : Except SourceError Progress :=
  visit decoder w (w.files.length + 1) [] path ⟨"", 0, 0⟩ {}

end CellChain.Description
