import CellChain.Abort
import CellChain.Target
import CellChain.Text.Decimal
/-! Leaves: the values that are written to cells. Structs and tuples flatten into the leaves of their
members in order; a mapping, an array and a byte array are one leaf each, whatever they hold. -/
namespace CellChain

/-- The sum of two integers of 64 bits. One that leaves their range comes back into it at the other end. -/
def intSum (a b : Int) : Int :=
  if 0 < a ∧ 0 < b ∧ Text.largestInt < a + b then a + b - 18446744073709551616
  else if a < 0 ∧ b < 0 ∧ a + b < Text.smallestInt then a + b + 18446744073709551616
  else a + b

def arrayLengthBits : Int := 32

structure Leaf where
  path : String
  type : Ty
  bits : Int
  refs : Int
  deriving Repr

namespace Ty

def leafSize? (target : Target) : Ty → Option (Int × Int)
  | .integer _ bits => some (bits, 0)
  | .bool => some (1, 0)
  | .mapping .. => some (1, 1)
  | .array _ => some (arrayLengthBits + 1, 1)
  | .bytes _ | .cell => some (0, 1)
  | .address => some (target.addressBits, 0)
  | .struct .. | .named _ | .tuple _ | .other _ => none

def positions (types : List Ty) : List String := (List.range types.length).map toString

mutual
def leaves (target : Target) (path : String) : Ty → Except Abort (List Leaf)
  | .struct _ names types => memberLeaves target path names types
  | .tuple types => memberLeaves target path (positions types) types
  | t =>
    match t.leafSize? target with
    | some (bits, refs) => .ok [⟨path, t, bits, refs⟩]
    | none => .error ⟨t.text, .noWireEncoding⟩

def memberLeaves (target : Target) (path : String) (names : List String) :
    List Ty → Except Abort (List Leaf)
  | [] => .ok []
  | t :: rest => do
    let first ← t.leaves target (path ++ "." ++ names.headD "")
    let others ← memberLeaves target path names.tail rest
    .ok (first ++ others)
end

def listLeaves (target : Target) (names : List String) : List Ty → Except Abort (List Leaf)
  | [] => .ok []
  | t :: rest => do
    let first ← t.leaves target (names.headD "")
    let others ← listLeaves target names.tail rest
    .ok (first ++ others)

/- The first leaf, in writing order, that cannot be written to a cell. What stands behind a mapping or an
array is not looked at. -/
mutual
def unencodable? : Ty → Option Ty
  | .struct _ _ types | .tuple types => firstUnencodable? types
  | t => if (t.leafSize? {}).isSome then none else some t

def firstUnencodable? : List Ty → Option Ty
  | [] => none
  | t :: rest => (t.unencodable?).or (firstUnencodable? rest)
end

end Ty

end CellChain
