/-! The limits of the machine that data is laid out for. They are settings, never computed: the cell
boundaries of stored data must be the same in every compilation. -/
namespace CellChain

structure Capacity where
  bits : Int
  refs : Int
  deriving DecidableEq, Repr

structure Target where
  cellBits : Int := 1023
  cellRefs : Int := 4
  arrayKey : Int := 32
  addressBits : Int := 267
  dictValueBits : Int := 512
  deriving DecidableEq, Repr, Inhabited

namespace Target

def cell (t : Target) : Capacity := ⟨t.cellBits, t.cellRefs⟩

def dictValue (t : Target) : Capacity := ⟨t.dictValueBits, t.cellRefs⟩

def text (t : Target) : String :=
  "cell=" ++ toString t.cellBits ++ "b/" ++ toString t.cellRefs ++ "r arrayKey=" ++ toString t.arrayKey ++
    " address=" ++ toString t.addressBits ++ " dictValue=" ++ toString t.dictValueBits

end Target

end CellChain
