import CellChain.Layout.Leaf
/-! The position in a chain of cells while leaves are placed. While leaves follow, one reference of the
current cell stays free for the link to the next one; a leaf that does not fit opens a new cell. Where cells
end is a function of the leaves and the starting offset alone, so writer and reader agree on it. -/
namespace CellChain

structure Position where
  capacity : Capacity
  bits : Int
  refs : Int
  cells : Int
  leaves : List Leaf
  deriving Repr

namespace Position

def construct : String := "encode position"

def start (target : Target) (offset : Int) (names : List String) (types : List Ty)
    (capacity : Capacity) : Except Abort Position := do
  require (0 ≤ offset ∧ offset ≤ capacity.bits) construct (.offsetOutside offset capacity.bits)
  let leaves ← Ty.listLeaves target names types
  .ok ⟨capacity, offset, 0, 1, leaves⟩

def ofTypes (target : Target) (offset : Int) (types : List Ty) : Except Abort Position :=
  start target offset (Ty.positions types) types target.cell

def canFit (p : Position) (bits refs : Int) : Prop :=
  intSum p.bits bits ≤ p.capacity.bits ∧ intSum p.refs refs ≤ p.capacity.refs

instance (p : Position) (bits refs : Int) : Decidable (p.canFit bits refs) := by
  unfold canFit; infer_instance

def consume (p : Position) (bits refs : Int) : Except Abort (Bool × Position) :=
  if p.canFit bits refs then .ok (false, { p with bits := intSum p.bits bits, refs := intSum p.refs refs })
  else
    -- There are no more cells than leaves and one, so this count needs no care.
    let fresh := { p with bits := 0, refs := 0, cells := p.cells + 1 }
    if fresh.canFit bits refs then .ok (true, { fresh with bits, refs })
    else .error ⟨construct, .overfull bits refs⟩

def next (p : Position) : Except Abort (Bool × Position) :=
  match p.leaves with
  | [] => .error ⟨construct, .noLeafLeft⟩
  | leaf :: rest => do
    let reserve : Int := if rest.isEmpty then 0 else 1
    let (opened, q) ← { p with leaves := rest }.consume leaf.bits (intSum leaf.refs reserve)
    .ok (opened, { q with refs := intSum q.refs (-reserve) })

def done (p : Position) : Bool := p.leaves.isEmpty

end Position

def fitsOneCell (target : Target) (offset : Int) (types : List Ty) (capacity : Capacity) : Bool :=
  if capacity.bits < offset then false
  else
    match Ty.listLeaves target [] types with
    | .error _ => false
    | .ok leaves =>
      leaves.foldl (fun n l => intSum n l.bits) offset ≤ capacity.bits &&
        leaves.foldl (fun n l => intSum n l.refs) 0 ≤ capacity.refs

namespace Ty

def isAggregate : Ty → Bool
  | .struct .. | .named _ | .tuple _ => true
  | _ => false

def membersFitDict (target : Target) (key : Int) (types : List Ty) : Bool :=
  !types.any isAggregate && fitsOneCell target key types target.dictValue

end Ty

structure LayoutEntry where
  path : String
  type : Ty
  cell : Int
  bitOffset : Int
  bits : Int
  refs : Int
  deriving Repr

def place : List Leaf → Position → Except Abort (List LayoutEntry)
  | [], _ => .ok []
  | leaf :: rest, p => do
    let (_, q) ← p.next
    let entries ← place rest q
    .ok (⟨leaf.path, leaf.type, q.cells - 1, intSum q.bits (-leaf.bits), leaf.bits, leaf.refs⟩ :: entries)

def layout (target : Target) (offset : Int) (names : List String) (types : List Ty) :
    Except Abort (List LayoutEntry) := do
  let p ← Position.start target offset names types target.cell
  place p.leaves p

end CellChain
