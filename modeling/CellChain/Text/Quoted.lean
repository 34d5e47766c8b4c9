import CellChain.Text.Printable
/-! Double-quoted text. Printable characters stand for themselves, the rest is escaped; bytes that are
not UTF-8 are escaped one at a time, so any byte string can be quoted. -/
namespace CellChain.Text

def hexDigit (n : Nat) : Char :=
  if n < 10 then Char.ofNat (48 + n) else Char.ofNat (87 + n)

def hexPad : Nat → Nat → List Char
  | 0, _ => []
  | width + 1, n => hexPad width (n / 16) ++ [hexDigit (n % 16)]

def escapeChar (c : Char) : List Char :=
  if c = '"' ∨ c = '\\' then ['\\', c]
  else if isPrintable c then [c]
  else if c.toNat = 7 then ['\\', 'a']
  else if c.toNat = 8 then ['\\', 'b']
  else if c.toNat = 12 then ['\\', 'f']
  else if c = '\n' then ['\\', 'n']
  else if c = '\r' then ['\\', 'r']
  else if c = '\t' then ['\\', 't']
  else if c.toNat = 11 then ['\\', 'v']
  else if c.toNat < 0x20 ∨ c.toNat = 0x7f then '\\' :: 'x' :: hexPad 2 c.toNat
  else if c.toNat < 0x10000 then '\\' :: 'u' :: hexPad 4 c.toNat
  else '\\' :: 'U' :: hexPad 8 c.toNat

def quote (s : String) : String :=
  String.ofList ('"' :: s.toList.flatMap escapeChar ++ ['"'])

def tailBits (b : UInt8) : Option Nat :=
  if 0x80 ≤ b.toNat ∧ b.toNat < 0xc0 then some (b.toNat - 0x80) else none

def assemble (lead : Nat) (least : Nat) (rest : List UInt8) : Option Char := do
  let n ← rest.foldlM (fun n b => (tailBits b).map (n * 64 + ·)) lead
  if least ≤ n ∧ (n < 0xd800 ∨ 0xdfff < n) ∧ n < 0x110000 then some (Char.ofNat n) else none

def firstChar : List UInt8 → Option (Char × Nat)
  | [] => none
  | a :: rest =>
    let n := a.toNat
    if n < 0x80 then some (Char.ofNat n, 1)
    else if 0xc2 ≤ n ∧ n < 0xe0 ∧ 1 ≤ rest.length then (assemble (n - 0xc0) 0x80 (rest.take 1)).map (·, 2)
    else if 0xe0 ≤ n ∧ n < 0xf0 ∧ 2 ≤ rest.length then (assemble (n - 0xe0) 0x800 (rest.take 2)).map (·, 3)
    else if 0xf0 ≤ n ∧ n < 0xf5 ∧ 3 ≤ rest.length then (assemble (n - 0xf0) 0x10000 (rest.take 3)).map (·, 4)
    else none

def escapeBytes : Nat → List UInt8 → List Char
  | _, [] => []
  | skip + 1, _ :: rest => escapeBytes skip rest
  | 0, b :: rest =>
    match firstChar (b :: rest) with
    | some (c, width) => escapeChar c ++ escapeBytes (width - 1) rest
    | none => '\\' :: 'x' :: hexPad 2 b.toNat ++ escapeBytes 0 rest

def quoteBytes (bytes : List UInt8) : String :=
  String.ofList ('"' :: escapeBytes 0 bytes ++ ['"'])

def readBytes : Nat → List UInt8 → List Char
  | _, [] => []
  | skip + 1, _ :: rest => readBytes skip rest
  | 0, b :: rest =>
    match firstChar (b :: rest) with
    | some (c, width) => c :: readBytes (width - 1) rest
    | none => Char.ofNat 0xfffd :: readBytes 0 rest

def ofBytes (bytes : List UInt8) : String := String.ofList (readBytes 0 bytes)

def utf8 (s : String) : List UInt8 := s.toUTF8.data.toList

end CellChain.Text
