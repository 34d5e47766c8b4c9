import CellChain.Code.Codec
import CellChain.Code.Default
/-! Records: structs and tuples as one tuple on the stack, with a slot for each member in order. A record
is built from arguments, read and changed by member, and turned into a builder or read from a slice. -/
namespace CellChain

structure Record where
  name : String
  names : List String
  types : List Ty

namespace Record

def repeated? : List String → List String → Option String
  | _, [] => none
  | seen, n :: rest => if seen.contains n then some n else repeated? (n :: seen) rest

def ofMembers (name : String) (names : List String) (types : List Ty) : Except Abort Record := do
  require (names.length = types.length) name (.memberCount names.length types.length)
  match repeated? [] names with
  | some n => .error ⟨name, .duplicateMember n⟩
  | none => .ok ⟨name, names, types⟩

def members? (t : Ty) : Option (String × List String × List Ty) :=
  match t with
  | .struct _ names types => some (t.text, names, types)
  | .tuple types => some (t.text, Ty.positions types, types)
  | _ => none

open Emit

def slot (r : Record) (name : String) : Emit Int :=
  match r.names.findIdx? (· == name) with
  | some k => pure (k : Int)
  | none => abort r.name (.noMember name)

def toBuilder (r : Record) : Emit Unit := do
  let before ← depth
  let t ← target
  startContinuation
  untuple r.types.length
  if 2 ≤ r.types.length then reverse r.types.length 0
  newBuilder
  let _ ← storeValues r.types (← lift (Position.start t 0 r.names r.types t.cell))
  callRef 1 1
  ensureDepth before (r.name ++ " to builder")

def ofSlice (r : Record) : Emit Unit := do
  let before ← depth
  let t ← target
  let _ ← loadValues r.types (← lift (Position.start t 0 r.names r.types t.cell))
  endSlice
  tuple r.types.length
  ensureDepth before (r.name ++ " from slice")

def default (r : Record) (asBuilder : Bool) : Emit Unit := do
  let before ← depth
  pushDefaults r.types
  tuple r.types.length
  if asBuilder then r.toBuilder
  ensureDepth (before + 1) (r.name ++ " default")

/-- How a slot is filled when a record is built from arguments. Mappings take none, they start empty. -/
inductive Slot where
  | empty (type : Ty)
  | argument (k : Nat) (type : Ty)
  | refused (cause : Abort.Cause)

def isMapping : Ty → Bool
  | .mapping .. => true
  | _ => false

def positional : Nat → List Ty → List Slot
  | _, [] => []
  | k, t :: rest => if isMapping t then .empty t :: positional k rest else .argument k t :: positional (k + 1) rest

def namedSlot (given : List String) (name : String) (t : Ty) : Slot :=
  match given.findIdx? (· == name) with
  | some k => if isMapping t then .refused (.mappingNamed name) else .argument k t
  | none => if isMapping t then .empty t else .refused (.memberNotNamed name)

def slots (r : Record) : Option (List String) → List Slot
  | none => positional 0 r.types
  | some given => List.zipWith (namedSlot given) r.names r.types

def requests (r : Record) (given : Option (List String)) : List (Nat × Ty) :=
  (r.slots given).filterMap fun
    | .argument k t => some (k, t)
    | _ => none

def fill (r : Record) (produce : Nat → Ty → Emit Unit) : Slot → Emit Unit
  | .empty t => pushDefault t
  | .refused cause => abort r.name cause
  | .argument k t => do
    let before ← depth
    produce k t
    ensureDepth (before + 1) (r.name ++ " constructor argument " ++ toString k)

def fillAll (r : Record) (produce : Nat → Ty → Emit Unit) : List Slot → Emit Unit
  | [] => pure ()
  | s :: rest => do
    r.fill produce s
    r.fillAll produce rest

def construct (r : Record) (given : Option (List String)) (produce : Nat → Ty → Emit Unit) : Emit Unit := do
  let before ← depth
  r.fillAll produce (r.slots given)
  tuple r.types.length
  ensureDepth (before + 1) (r.name ++ " constructor")

def get (r : Record) (name : String) : Emit Unit := do index (← r.slot name)

def set (r : Record) (name : String) : Emit Unit := do setIndex (← r.slot name)

end Record

end CellChain
