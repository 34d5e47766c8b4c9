import CellChain.Code.Emitter
import CellChain.Layout.Position
/-! Storing values in a chain of builders and loading them from a chain of slices.

Storing expects the first value right under the builder, and leaves the builder. Values are stored in order.
When a leaf does not fit, the builder moves below the values that still wait and a new one is opened; at the
end the builders are folded into a chain in which each cell keeps the link to the next as its last reference.
Loading takes a slice and leaves the values with the remaining slice on top. -/
namespace CellChain.Emit

namespace Store

structure State where
  position : Position
  pending : Int
  builders : Int

def expand (k : Nat) : Emit Unit := do
  swap
  untuple k
  if 2 ≤ k + 1 then reverse (k + 1) 0

def leaf : Ty → Emit Unit
  | .integer true bits => op .stI [bits]
  | .integer false bits => op .stU [bits]
  | .bool => op .stI [1]
  | .mapping .. => op .stDict
  | .bytes _ | .cell => op .stRef
  | .array _ => do
    swap
    unpair
    rotRev
    swap
    op .stU [arrayLengthBits]
    op .stDict
  | .address => op .stSlice
  | t => abort t.text (.cannotEncode t.category)

def breakCell (pending : Int) : Emit Unit := do
  blockSwap pending 1
  newBuilder

mutual
def value (t : Ty) (s : State) : Emit State :=
  match t with
  | .struct _ _ types => do
    expand types.length
    values types { s with pending := s.pending + (types.length - 1) }
  | .tuple types => do
    expand types.length
    values types { s with pending := s.pending + (types.length - 1) }
  | t => do
    let (opened, position) ← lift s.position.next
    if opened then breakCell s.pending
    leaf t
    pure ⟨position, s.pending - 1, if opened then s.builders + 1 else s.builders⟩

def values : List Ty → State → Emit State
  | [], s => pure s
  | t :: rest, s => do values rest (← value t s)
end

def fold : Nat → Emit Unit
  | 0 => pure ()
  | n + 1 => do
    op .stBRefR
    fold n

end Store

def storeValues (types : List Ty) (position : Position) : Emit Position := do
  let before ← depth
  check ((types.length : Int) + 1 ≤ before) "encode parameters" (.missingValues types.length before)
  let s ← Store.values types ⟨position, types.length, 1⟩
  check (s.position.done = true) "encode parameters" .leavesUnplaced
  check (s.pending = 0) "encode parameters" (.valuesUnstored s.pending)
  Store.fold (s.builders - 1).toNat
  ensureDepth (before - types.length) "encode parameters"
  pure s.position

namespace Load

def group (k : Nat) : Emit Unit := do
  blockSwap k 1
  tuple k
  swap

def leaf : Ty → Emit Unit
  | .integer true bits => op .ldI [bits]
  | .integer false bits => op .ldU [bits]
  | .bool => op .ldI [1]
  | .mapping .. => op .ldDict
  | .bytes _ | .cell => op .ldRef
  | .array _ => do
    op .ldU [arrayLengthBits]
    op .ldDict
    rotRev
    pair
    swap
  | .address => do
    let t ← target
    op .ldSlice [t.addressBits]
  | t => abort t.text (.cannotDecode t.category)

def followLink : Emit Unit := do
  op .ldRefRToS
  nip

mutual
def value (t : Ty) (p : Position) : Emit Position :=
  match t with
  | .struct _ _ types => do
    let p ← values types p
    group types.length
    pure p
  | .tuple types => do
    let p ← values types p
    group types.length
    pure p
  | t => do
    let (opened, p) ← lift p.next
    if opened then followLink
    leaf t
    pure p

def values : List Ty → Position → Emit Position
  | [], p => pure p
  | t :: rest, p => do values rest (← value t p)
end

end Load

def loadValues (types : List Ty) (position : Position) : Emit Position := do
  let before ← depth
  check (1 ≤ before) "decode parameters" .noSlice
  let p ← Load.values types position
  check (p.done = true) "decode parameters" .leavesUnread
  ensureDepth (before + types.length) "decode parameters"
  pure p

def dictPosition (type : Ty) (key : Int) : Emit Position := do
  let t ← target
  match type with
  | .struct _ _ types => check (Ty.membersFitDict t key types = true) type.text (.notOneCell key)
  | _ => pure ()
  lift (Position.start t key (Ty.positions [type]) [type] t.dictValue)

def storeDictValue (type : Ty) (key : Int) : Emit Unit := do
  let p ← storeValues [type] (← dictPosition type key)
  check (p.cells = 1) type.text (.spilled p.cells)

def loadDictValue (type : Ty) (key : Int) : Emit Unit := do
  let p ← loadValues [type] (← dictPosition type key)
  check (p.cells = 1) type.text (.spilled p.cells)

end CellChain.Emit
