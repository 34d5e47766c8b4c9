import CellChain.Command.Run
import CellChain.Text.Decimal
/-! The command line program: reads the files that matter, runs the command on them and writes what is new. -/
namespace CellChain

def addFile (w : Workspace) (path : String) : IO Workspace := do
  try
    let text ← IO.FS.readFile path
    return { w with files := w.files ++ [(path, text)] }
  catch
    | .noFileOrDirectory .. => return w
    | _ => return { w with files := w.files ++ [(path ++ "/.", "")] }

partial def gather (words tried : List String) (w : Workspace) : IO Workspace := do
  match (Command.wanted w words).filter (!tried.contains ·) with
  | [] => return w
  | path :: _ => gather words (path :: tried) (← addFile w path)

def writeNew (before after : Workspace) : IO Unit :=
  after.files.forM fun (path, text) => do
    if !before.files.contains (path, text) then
      IO.FS.createDirAll (Path.dir path)
      IO.FS.writeFile path text

end CellChain

open CellChain in
def main (words : List String) : IO UInt32 := do
  let start ← IO.monoNanosNow
  let w ← gather words [] ⟨(← IO.currentDir).toString, []⟩
  let outcome := Command.run w words
  IO.eprint outcome.state.dump
  writeNew w outcome.state.workspace
  IO.print (outcome.state.text (Text.Duration.text ((← IO.monoNanosNow) - start)))
  match outcome.failure with
  | none => return 0
  | some failure =>
    IO.eprintln ("error: " ++ failure.message)
    return 1
