import CellChain.Ty.Basic
import CellChain.Text.Notice
import CellChain.Text.Quoted
import CellChain.Text.Decimal
/-! Type expressions such as `uint32`, `Point[]`, `mapping(uint256 => Point)` or `tuple(bool,address)`.
They are read as bytes; a byte counts as a letter when the character of that number in Latin-1 is one.
A name that is no keyword and no integer type is looked up among the declared structs. -/
namespace CellChain.Ty

open Text (Phrase utf8 quote quoteBytes)

abbrev Bytes := List UInt8

inductive ParseError where
  | leftover (rest : Bytes) (offset : Nat)
  | missing (token : String) (offset : Nat)
  | noType (offset : Nat)
  | unknown (name : Bytes)
  | width (bits : Nat) (name : Bytes)
  deriving DecidableEq, Repr

def ParseError.phrases (source : String) : ParseError → List Phrase
  | .leftover rest offset =>
    [.own "unexpected ", .repeated (quoteBytes rest), .own (" at offset " ++ toString offset ++ " in type "),
      .repeated (quote source)]
  | .missing token offset =>
    [.own ("expected " ++ quote token ++ " at offset " ++ toString offset ++ " in type "),
      .repeated (quote source)]
  | .noType offset =>
    [.own ("expected a type at offset " ++ toString offset ++ " in "), .repeated (quote source)]
  | .unknown name => [.own "unknown type ", .repeated (quoteBytes name)]
  | .width bits name =>
    [.own ("integer width " ++ toString bits ++ " out of range in "), .repeated (quoteBytes name)]

def ParseError.message (source : String) (e : ParseError) : String := Text.joined (e.phrases source)

def isNameByte (b : UInt8) : Bool :=
  let n := b.toNat
  (0x30 ≤ n && n ≤ 0x39) || (0x41 ≤ n && n ≤ 0x5a) || (0x61 ≤ n && n ≤ 0x7a) || n == 0x5f ||
    n == 0xaa || n == 0xb5 || n == 0xba || (0xc0 ≤ n && n != 0xd7 && n != 0xf7)

def skipBlanks (s : Bytes) : Bytes := s.dropWhile (· == 0x20)

def accept? (token : String) (s : Bytes) : Option Bytes :=
  let s := skipBlanks s
  let t := utf8 token
  if t.isPrefixOf s then some (s.drop t.length) else none

def takeName (s : Bytes) : Bytes × Bytes :=
  let s := skipBlanks s
  (s.takeWhile isNameByte, s.dropWhile isNameByte)

def integerWidth? (digits : Bytes) : Option Nat :=
  if digits = [] then some 256
  else (Text.integer? (digits.map fun b => Char.ofNat b.toNat)).map Int.toNat

def integerName? (name : Bytes) : Option (Bool × Nat) :=
  if (utf8 "uint").isPrefixOf name then (integerWidth? (name.drop 4)).map (false, ·)
  else if (utf8 "int").isPrefixOf name then (integerWidth? (name.drop 3)).map (true, ·)
  else none

def opaqueNames : List String := ["function", "TvmSlice", "TvmBuilder"]

def builtIn? {ν : Type} (name : Bytes) : Option (Ty ν) :=
  if name = utf8 "bool" then some .bool
  else if name = utf8 "address" then some .address
  else if name = utf8 "TvmCell" ∨ name = utf8 "cell" then some .cell
  else if name = utf8 "bytes" then some (.bytes "bytes")
  else if name = utf8 "string" then some (.bytes "string")
  else (opaqueNames.find? fun n => utf8 n == name).map .other

section
variable {ν : Type} (total : Nat) (lookup : Bytes → Option (Ty ν))

def expect (token : String) (s : Bytes) : Except ParseError Bytes :=
  match accept? token s with
  | some rest => .ok rest
  | none => .error (.missing token (total - (skipBlanks s).length))

def structNamed (name : Bytes) (s : Bytes) : Except ParseError (Ty ν × Bytes) :=
  match lookup name with
  | some t => .ok (t, s)
  | none => .error (.unknown name)

def word (name : Bytes) (s : Bytes) : Except ParseError (Ty ν × Bytes) :=
  match builtIn? name with
  | some t => .ok (t, s)
  | none =>
    match integerName? name with
    | some (signed, bits) =>
      if 1 ≤ bits ∧ bits ≤ 256 then .ok (.integer signed bits, s) else .error (.width bits name)
    | none => structNamed lookup name s

def suffixes (more : Ty ν → Bytes → Except ParseError (Ty ν × Bytes)) (t : Ty ν) (s : Bytes) :
    Except ParseError (Ty ν × Bytes) :=
  match accept? "[" s with
  | none => .ok (t, s)
  | some s => do more (.array t) (← expect total "]" s)

def arraySuffix : Nat → Ty ν → Bytes → Except ParseError (Ty ν × Bytes)
  | 0, t, s => .ok (t, s)
  | fuel + 1, t, s => suffixes total (arraySuffix fuel) t s

section
variable (recur : Bytes → Except ParseError (Ty ν × Bytes))

def mappingBody (s : Bytes) : Except ParseError (Ty ν × Bytes) := do
  let s ← expect total "(" s
  let (key, s) ← recur s
  let s ← expect total "=>" s
  let (value, s) ← recur s
  let s ← expect total ")" s
  .ok (.mapping key value, s)

def listed (more : Bytes → Except ParseError (List (Ty ν) × Bytes)) (s : Bytes) :
    Except ParseError (List (Ty ν) × Bytes) := do
  let (t, s) ← recur s
  match accept? ")" s with
  | some s => .ok ([t], s)
  | none => do
    let s ← expect total "," s
    let (types, s) ← more s
    .ok (t :: types, s)

def components : Nat → Bytes → Except ParseError (List (Ty ν) × Bytes)
  | 0, s => .error (.noType (total - s.length))
  | fuel + 1, s => listed total recur (components fuel) s

def tupleBody (s : Bytes) : Except ParseError (Ty ν × Bytes) := do
  let s ← expect total "(" s
  match accept? ")" s with
  | some s => .ok (.tuple [], s)
  | none => do
    let (types, s) ← components total recur (s.length + 1) s
    .ok (.tuple types, s)

def base (s : Bytes) : Except ParseError (Ty ν × Bytes) :=
  let (name, rest) := takeName s
  if name = [] then .error (.noType (total - rest.length))
  else if name = utf8 "mapping" then mappingBody total recur rest
  else if name = utf8 "tuple" then tupleBody total recur rest
  else if name = utf8 "struct" then
    let (name, rest) := takeName rest
    structNamed lookup name rest
  else word lookup name rest

end

/- The fuel bounds how deep types nest; each level takes at least one byte. -/
def parseType : Nat → Bytes → Except ParseError (Ty ν × Bytes)
  | 0, s => .error (.noType (total - s.length))
  | fuel + 1, s => do
    let (t, s) ← base total lookup (parseType fuel) s
    arraySuffix total s.length t s

end

def finish {ν : Type} (total : Nat) (read : Ty ν × Bytes) : Except ParseError (Ty ν) :=
  let rest := skipBlanks read.2
  if rest = [] then .ok read.1 else .error (.leftover rest (total - rest.length))

def parseBytes {ν : Type} (lookup : Bytes → Option (Ty ν)) (s : Bytes) : Except ParseError (Ty ν) :=
  parseType s.length lookup (s.length + 1) s >>= finish s.length

def parse {ν : Type} (lookup : Bytes → Option (Ty ν)) (source : String) : Except ParseError (Ty ν) :=
  parseBytes lookup (utf8 source)

end CellChain.Ty
