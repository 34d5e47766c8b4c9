/-! Cells, builders and slices, and the values on the machine's stack. A cell holds data bits and references to
other cells; a builder is a cell under construction; a slice reads a cell from the front. -/
namespace CellChain

abbrev Word := BitVec 256

namespace Word

def text (x : Word) : String := toString x.toInt

def bitLen (x : Word) : Nat := if x = 0 then 0 else x.toNat.log2 + 1

def sign (x : Word) : Int := if x = 0 then 0 else if x.msb then -1 else 1

def bytes (x : Word) : List (BitVec 8) := (List.range 32).map fun k => (x >>> (8 * (31 - k))).setWidth 8

end Word

inductive Cell where
  | mk (bits : List Bool) (refs : List Cell)
  deriving Repr, Inhabited

namespace Cell

def bits : Cell → List Bool
  | .mk bits _ => bits

def refs : Cell → List Cell
  | .mk _ refs => refs

def empty : Cell := .mk [] []

mutual
def depth : Cell → Nat
  | .mk _ refs => depthBelow refs

def depthBelow : List Cell → Nat
  | [] => 0
  | c :: rest => max (c.depth + 1) (depthBelow rest)
end

mutual
def same : Cell → Cell → Bool
  | .mk bits refs, .mk bits' refs' => bits == bits' && sameAll refs refs'

def sameAll : List Cell → List Cell → Bool
  | [], [] => true
  | c :: cs, d :: ds => same c d && sameAll cs ds
  | _, _ => false
end

def bitText (c : Cell) : String := String.ofList (c.bits.map fun b => if b then '1' else '0')

def text (c : Cell) : String :=
  "cell\x7b" ++ toString c.bits.length ++ " bits, " ++ toString c.refs.length ++ " refs\x7d"

end Cell

structure Builder where
  bits : List Bool
  refs : List Cell
  deriving Repr, Inhabited

structure Slice where
  cell : Cell
  bitPos : Nat
  refPos : Nat
  deriving Repr, Inhabited

namespace Slice

def ofCell (c : Cell) : Slice := ⟨c, 0, 0⟩

def bits (s : Slice) : List Bool := s.cell.bits.drop s.bitPos

def refs (s : Slice) : List Cell := s.cell.refs.drop s.refPos

def rest (s : Slice) : Cell := .mk s.bits s.refs

def isEmpty (s : Slice) : Bool := s.bits.isEmpty && s.refs.isEmpty

def bitsValue (bits : List Bool) : Word :=
  bits.foldl (fun x b => (x <<< 1) + if b then 1 else 0) 0

def take? (s : Slice) (n : Nat) : Option (List Bool × Slice) :=
  if n ≤ s.bits.length then some (s.bits.take n, { s with bitPos := s.bitPos + n }) else none

def ref? (s : Slice) : Option (Cell × Slice) :=
  match s.refs with
  | [] => none
  | c :: _ => some (c, { s with refPos := s.refPos + 1 })

end Slice

namespace Builder

def empty : Builder := ⟨[], []⟩

def finish (b : Builder) : Cell := .mk b.bits b.refs

def storeBits (b : Builder) (bits : List Bool) : Builder := { b with bits := b.bits ++ bits }

def bitsBelow (raw : List (BitVec 8)) : Nat → List Bool
  | 0 => []
  | i + 1 => (raw.getD (31 - i / 8) 0 >>> (i % 8) &&& 1 == 1) :: bitsBelow raw i

def wordBits (x : Word) (n : Nat) : List Bool := bitsBelow x.bytes n

def storeWord? (b : Builder) (x : Word) (n : Nat) : Option Builder :=
  if n ≤ 256 then some (b.storeBits (wordBits x n)) else none

def storeRef (b : Builder) (c : Cell) : Builder := { b with refs := b.refs ++ [c] }

def storeSlice (b : Builder) (s : Slice) : Builder := ⟨b.bits ++ s.bits, b.refs ++ s.refs⟩

end Builder

inductive Value where
  | int (x : Word)
  | null
  | tuple (items : List Value)
  | cell (c : Cell)
  | builder (b : Builder)
  | slice (s : Slice)
  deriving Repr, Inhabited

namespace Value

mutual
def same : Value → Value → Bool
  | .int x, .int y => x == y
  | .null, .null => true
  | .tuple vs, .tuple ws => sameAll vs ws
  | .cell c, .cell d => c.same d
  | .slice s, .slice t => s.rest.same t.rest
  | .builder b, .builder d => b.finish.same d.finish
  | _, _ => false

def sameAll : List Value → List Value → Bool
  | [], [] => true
  | v :: vs, w :: ws => same v w && sameAll vs ws
  | _, _ => false
end

end Value

end CellChain
