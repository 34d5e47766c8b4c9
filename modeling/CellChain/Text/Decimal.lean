/-! Numerals as they are read and written: integers, decimal fractions read to the nearest binary number, and
durations in the largest unit that leaves a whole part. -/
namespace CellChain.Text

def digit? (c : Char) : Option Nat :=
  if '0' ≤ c ∧ c ≤ '9' then some (c.toNat - 48) else none

def digits? : List Char → Option Nat
  | [] => none
  | cs => cs.foldlM (fun n c => (digit? c).map (n * 10 + ·)) 0

def largestInt : Int := 9223372036854775807
def smallestInt : Int := -9223372036854775808

def integer? (cs : List Char) : Option Int := do
  let value ← match cs with
    | '-' :: rest => (digits? rest).map fun n => -(n : Int)
    | '+' :: rest => (digits? rest).map fun n => (n : Int)
    | rest => (digits? rest).map fun n => (n : Int)
  if smallestInt ≤ value ∧ value ≤ largestInt then some value else none

def power? : List Char → Option Nat
  | [] => none
  | figures => figures.foldlM (fun n c => (digit? c).map fun d => if n < 10000 then n * 10 + d else n) 0

def exponent? : List Char → Option Int
  | [] => some 0
  | c :: rest =>
    if c == 'e' || c == 'E' then
      match rest with
      | '-' :: figures => (power? figures).map fun n => -n
      | '+' :: figures => (power? figures).map fun n => n
      | figures => (power? figures).map fun n => n
    else none

def scientific? (figures : List Char) (exponent : Int) : Option Float :=
  let figures := figures.dropWhile (· == '0')
  let size := figures.length + exponent
  if figures.isEmpty ∨ size < -400 then some 0
  else if 400 < size then none
  else
    (digits? figures).bind fun mantissa =>
      let value := Float.ofScientific mantissa (exponent < 0) exponent.natAbs
      if value.isInf then none else some value

def fraction? (text : List Char) : Option Float := do
  let (negative, text) := match text with
    | '-' :: rest => (true, rest)
    | '+' :: rest => (false, rest)
    | _ => (false, text)
  let whole := text.takeWhile Char.isDigit
  let (places, rest) := match text.dropWhile Char.isDigit with
    | '.' :: rest => (rest.takeWhile Char.isDigit, rest.dropWhile Char.isDigit)
    | rest => ([], rest)
  if whole.isEmpty && places.isEmpty then none
  else do
    let value ← scientific? (whole ++ places) ((← exponent? rest) - places.length)
    some (if negative then -value else value)

namespace Duration

def fraction (places n : Nat) : String :=
  let digits := (toString n).toList
  let padded := List.replicate (places - digits.length) '0' ++ digits
  match padded.reverse.dropWhile (· == '0') with
  | [] => ""
  | kept => "." ++ String.ofList kept.reverse

def decimal (places nanos : Nat) : String :=
  let unit := Nat.pow 10 places
  toString (nanos / unit) ++ fraction places (nanos % unit)

def text (nanos : Nat) : String :=
  if nanos = 0 then "0s"
  else if nanos < 1000 then toString nanos ++ "ns"
  else if nanos < 1000000 then decimal 3 nanos ++ "µs"
  else if nanos < 1000000000 then decimal 6 nanos ++ "ms"
  else
    let minute := 60000000000
    let hour := 60 * minute
    (if hour ≤ nanos then toString (nanos / hour) ++ "h" else "") ++
    (if minute ≤ nanos then toString (nanos % hour / minute) ++ "m" else "") ++
    decimal 9 (nanos % minute) ++ "s"

end Duration

end CellChain.Text
