import CellChain.Code.Emitter
/-! Default values: zero, the empty dictionary, the empty array, the empty cell, the zero address, and
tuples of the defaults of members. -/
namespace CellChain.Emit

/-- The address with no workchain and a zero account: the tag `100` in eleven bits, then zeros. -/
def zeroAddress : Emit Unit := do
  let t ← target
  pushSmall 1024
  newBuilder
  op .stU [11]
  pushSmall 0
  swap
  op .stU [t.addressBits - 11]
  endBuilder
  toSlice

def emptyArray : Emit Unit := do
  pushSmall 0
  op .newDict
  pair

def emptyCell : Emit Unit := do
  newBuilder
  endBuilder

mutual
def pushDefault (t : Ty) : Emit Unit := do
  let before ← depth
  match t with
  | .integer .. | .bool => pushSmall 0
  | .mapping .. => op .newDict
  | .array _ => emptyArray
  | .bytes _ | .cell => emptyCell
  | .address => zeroAddress
  | .struct _ _ types => do pushDefaults types; tuple types.length
  | .tuple types => do pushDefaults types; tuple types.length
  | .named _ | .other _ => abort t.text .noDefault
  ensureDepth (before + 1) ("default value of " ++ t.text)

def pushDefaults : List Ty → Emit Unit
  | [] => pure ()
  | t :: rest => do
    pushDefault t
    pushDefaults rest
end

end CellChain.Emit
