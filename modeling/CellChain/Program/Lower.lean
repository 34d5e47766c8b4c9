import CellChain.Code.Record
import CellChain.Contract.Basic
import CellChain.Program.Basic
import CellChain.Workspace
/-! Lowering: the fragments of a validated contract. Public functions decode their parameters and encode
their return values, the persistent data is loaded and stored, and each struct in use has three helpers.
The artifact of a contract is the listing of its fragments, in a file that bears its name. -/
namespace CellChain

def stateHeader : List (String × Ty) :=
  [("_pubkey", .uint 256), ("_timestamp", .uint 64), ("_constructorFlag", .bool)]

def SourceUnit.stateMembers (u : SourceUnit) (c : Contract) : List (String × Ty) :=
  stateHeader ++ (u.baseFirst c).flatMap fun b => b.state.map fun v => (v.name, v.type)

namespace Lower

def functionIdBits : Int := 32

mutual
def complete (around : List (String × Ty)) : Ty → Ty
  | .named name => (around.lookup name).getD (.named name)
  | .struct name names types => .struct name names (completeAll around types)
  | .tuple types => .tuple (completeAll around types)
  | t => t

def completeAll (around : List (String × Ty)) : List Ty → List Ty
  | [] => []
  | t :: rest => complete around t :: completeAll around rest
end

/- The structs reachable from a type that were not seen yet, nested ones first. A struct is marked by its
name before its members are visited. The lists are the structs around the type, the names seen and the structs
found so far. -/
mutual
def collect (around : List (String × Ty)) : Ty → List String × List Ty → List String × List Ty
  | .struct name names types, (seen, found) =>
    if seen.contains name then (seen, found)
    else
      let whole := complete around (.struct name names types)
      let (seen, found) := collectAll ((name, whole) :: around) types (name :: seen, found)
      (seen, found ++ [whole])
  | .tuple types, acc => collectAll around types acc
  | .mapping _ value, acc => collect around value acc
  | .array element, acc => collect around element acc
  | _, acc => acc

def collectAll (around : List (String × Ty)) : List Ty → List String × List Ty → List String × List Ty
  | [], acc => acc
  | t :: rest, acc => collectAll around rest (collect around t acc)
end

def fragmentName (f : Function) : String :=
  if f.kind = .function then f.name else f.kind.name

def types (vs : List Variable) : List Ty := vs.map Variable.type

def names (vs : List Variable) : List String :=
  vs.zipIdx.map fun (v, k) => if v.name = "" then "_" ++ toString k else v.name

def codeOf (target : Target) (depth : Int) (emit : Emit Unit) : Except Abort (List Instr) := do
  let (_, e) ← emit (Emitter.start target depth)
  e.code

open Emit

def decodeCode (target : Target) (f : Function) : Except Abort (List Instr) :=
  codeOf target 1 do
    op .ldU [functionIdBits]
    nip
    let p ← lift (Position.start target functionIdBits (names f.params) (types f.params) target.cell)
    let _ ← loadValues (types f.params) p
    endSlice
    ensureDepth f.params.length (fragmentName f ++ " decode")

def encodeCode (target : Target) (f : Function) : Except Abort (List Instr) :=
  codeOf target f.returns.length do
    if 2 ≤ f.returns.length then reverse f.returns.length 0
    newBuilder
    pushSmall (f.id ||| answerBit).toNat
    swap
    op .stU [functionIdBits]
    let p ← lift (Position.start target functionIdBits (names f.returns) (types f.returns) target.cell)
    let _ ← storeValues (types f.returns) p
    endBuilder
    ensureDepth 1 (f.name ++ " encode")

def decode (target : Target) (f : Function) : Except Abort Fragment := do
  .ok ⟨fragmentName f ++ "_decode", .decode, f.id, 1, f.params.length, ← decodeCode target f⟩

def encode (target : Target) (f : Function) : Except Abort Fragment := do
  .ok ⟨fragmentName f ++ "_encode", .encode, f.id ||| answerBit, f.returns.length, 1, ← encodeCode target f⟩

def loadState (target : Target) (members : List (String × Ty)) : Except Abort Fragment := do
  let (names, types) := members.unzip
  let code ← codeOf target 0 do
    pushRoot
    toSlice
    let _ ← loadValues types (← lift (Position.start target 0 names types target.cell))
    endSlice
    ensureDepth types.length "c4_to_c7"
  .ok ⟨"c4_to_c7", .loadState, 0, 0, types.length, code⟩

def storeState (target : Target) (members : List (String × Ty)) : Except Abort Fragment := do
  let (names, types) := members.unzip
  let code ← codeOf target types.length do
    if 2 ≤ types.length then reverse types.length 0
    newBuilder
    let _ ← storeValues types (← lift (Position.start target 0 names types target.cell))
    endBuilder
    popRoot
    ensureDepth 0 "c7_to_c4"
  .ok ⟨"c7_to_c4", .storeState, 0, types.length, 0, code⟩

def helpers (target : Target) (name : String) (names : List String) (types : List Ty) :
    Except Abort (List Fragment) := do
  let text := Ty.text (.struct name names types)
  let default ← codeOf target 0 do (← lift (Record.ofMembers text names types)).default false
  let toBuilder ← codeOf target 1 do (← lift (Record.ofMembers text names types)).toBuilder
  let ofSlice ← codeOf target 1 do (← lift (Record.ofMembers text names types)).ofSlice
  .ok [⟨name ++ "_default", .structDefault, 0, 0, 1, default⟩,
       ⟨name ++ "_to_builder", .structToBuilder, 0, 1, 1, toBuilder⟩,
       ⟨name ++ "_from_slice", .structOfSlice, 0, 1, 1, ofSlice⟩]

def functions (target : Target) : List Function → Except Abort (List Fragment)
  | [] => .ok []
  | f :: rest => do
    if f.isPublic then
      let d ← decode target f
      let e ← if f.kind = .function then (encode target f).map ([·]) else .ok []
      .ok (d :: e ++ (← functions target rest))
    else functions target rest

def structs (target : Target) : List Ty → Except Abort (List Fragment)
  | [] => .ok []
  | .struct name names types :: rest => do
    if (Ty.unencodable? (.struct name names types)).isSome then structs target rest
    else
      let own ← helpers target name names types
      .ok (own ++ (← structs target rest))
  | _ :: rest => structs target rest

def usedStructs (u : SourceUnit) (c : Contract) : List Ty :=
  let signatures := (c.functions.filter Function.isPublic).flatMap fun f => types f.params ++ types f.returns
  (collectAll [] (c.structs ++ signatures ++ (u.stateMembers c).map Prod.snd) ([], [])).2

end Lower

def lower (target : Target) (u : SourceUnit) (c : Contract) : Except Abort Program := do
  let functions ← Lower.functions target c.functions
  let members := u.stateMembers c
  let load ← Lower.loadState target members
  let store ← Lower.storeState target members
  let structs ← Lower.structs target (Lower.usedStructs u c)
  .ok ⟨c.name, functions ++ [load, store] ++ structs⟩

inductive BuildError where
  | abort (a : Abort)
  | directory (path : String) (error : FileError)
  | file (path : String) (error : FileError)

def BuildError.notice : BuildError → Text.Notice
  | .abort a => a.notice
  | .directory path e => .because [.own "cannot create build directory ", .repeated path] e.notice
  | .file path e => .because [.own "cannot write ", .repeated path] e.notice

namespace Artifact

def defaultDirectory : String := "build"

def safeName (name : String) : String :=
  String.ofList (name.toList.map fun c => if c == '.' || c == ' ' || c == '/' || c == '\\' then '_' else c)

def path (directory name : String) : String := Path.join directory (safeName name ++ ".code")

end Artifact

def Workspace.build (w : Workspace) (target : Target) (u : SourceUnit) (c : Contract) (directory name : String) :
    Except BuildError (Program × String × Workspace) := do
  let program ← (lower target u c).mapError .abort
  let directory := if directory = "" then Artifact.defaultDirectory else directory
  let path := Artifact.path directory (if name = "" then c.name else name)
  (w.makeDirectory directory).mapError (.directory directory)
  let w ← (w.write path program.listing).mapError (.file path)
  .ok (program, path, w)

end CellChain
