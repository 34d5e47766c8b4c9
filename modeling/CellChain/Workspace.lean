import CellChain.Path
import CellChain.Text.Notice
/-! The files a run works on, as a value: texts by their path from the working directory. Directories are
there because files are in them. Reading and writing fail as file operations do. -/
namespace CellChain

inductive FileError.Kind where
  | noEntry
  | isDirectory
  | notDirectory
  | exists
  | invalid
  | nameTooLong
  deriving DecidableEq, Repr

structure FileError where
  operation : String
  path : String
  kind : FileError.Kind
  deriving DecidableEq, Repr

def FileError.Kind.message : FileError.Kind → String
  | .noEntry => "no such file or directory"
  | .isDirectory => "is a directory"
  | .notDirectory => "not a directory"
  | .exists => "file exists"
  | .invalid => "invalid argument"
  | .nameTooLong => "file name too long"

def FileError.message (e : FileError) : String := e.operation ++ " " ++ e.path ++ ": " ++ e.kind.message

def FileError.notice (e : FileError) : Text.Notice :=
  .foreign e.message [[.own e.operation, .own " ", .repeated e.path], [.own e.kind.message]]

structure Workspace where
  root : String
  files : List (String × String)
  deriving Repr

inductive Workspace.Entry where
  | file (text : String)
  | directory

namespace Workspace

def absolute (w : Workspace) (path : String) : String :=
  if Path.isRooted path then Path.clean path else Path.join w.root path

/-- What the parts of a clean path lead to. Directories above the working directory are there, but nothing in
them unless it is named. -/
def entry? (w : Workspace) (rooted : Bool) (parts : List String) : Option Entry :=
  if parts.all (· == "..") then some .directory
  else
    let place := if rooted then "" :: parts else parts
    match w.files.find? fun (path, _) => Path.parts path == place with
    | some (_, text) => some (.file text)
    | none => if w.files.any fun (path, _) => place.isPrefixOf (Path.parts path) then some .directory else none

def walk (w : Workspace) (rooted : Bool) : List String → List String → Except FileError.Kind Entry
  | here, [] =>
    match w.entry? rooted here with
    | some e => .ok e
    | none => .error .noEntry
  | here, part :: rest =>
    match w.entry? rooted here with
    | none => .error .noEntry
    | some (.file _) => .error .notDirectory
    | some .directory =>
      if 255 < part.utf8ByteSize then .error .nameTooLong
      else walk w rooted (Path.cleanParts rooted (here ++ [part])) rest

def pathLimit : Nat := 4096

def find (w : Workspace) (path : String) : Except FileError.Kind Entry :=
  if path = "" then .error .noEntry
  else if path.toList.contains (Char.ofNat 0) then .error .invalid
  else if pathLimit ≤ path.utf8ByteSize then .error .nameTooLong
  else w.walk (Path.isRooted path) [] (Path.parts path)

def read (w : Workspace) (path : String) : Except FileError String :=
  match w.find path with
  | .ok (.file text) => .ok text
  | .ok .directory => .error ⟨"read", path, .isDirectory⟩
  | .error kind => .error ⟨"open", path, kind⟩

def parentPath (path : List Char) : List Char :=
  ((path.reverse.dropWhile (· == '/')).dropWhile (· != '/')).tail.reverse

def makeSteps (w : Workspace) : Nat → List Char → Except FileError Unit
  | 0, _ => .ok ()
  | n + 1, path =>
    match w.find (String.ofList path) with
    | .ok .directory => .ok ()
    | .ok (.file _) => .error ⟨"mkdir", String.ofList path, .notDirectory⟩
    | .error kind => do
      if !(parentPath path).isEmpty then w.makeSteps n (parentPath path)
      if kind = .notDirectory then .error ⟨"mkdir", String.ofList path, .exists⟩
      if kind = .invalid ∨ kind = .nameTooLong then .error ⟨"mkdir", String.ofList path, kind⟩

def makeDirectory (w : Workspace) (path : String) : Except FileError Unit :=
  w.makeSteps (path.length + 1) path.toList

def write (w : Workspace) (path text : String) : Except FileError Workspace :=
  let refused (kind : FileError.Kind) : Except FileError Workspace := .error ⟨"open", path, kind⟩
  match w.find path with
  | .ok .directory => refused .isDirectory
  | .error .invalid => refused .invalid
  | .error .nameTooLong => refused .nameTooLong
  | _ =>
    let path := Path.clean path
    .ok { w with files := (path, text) :: w.files.filter (·.1 != path) }

end Workspace

end CellChain
