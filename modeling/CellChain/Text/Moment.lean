import CellChain.Text.Quoted
/-! Dates and times of day in figures. A layout tells which figures stand where. -/
namespace CellChain.Text.Moment

inductive Part where
  | year
  | month (padded : Bool)
  | day (padded : Bool)
  | hour
  | minute (padded : Bool)
  | second (padded : Bool)
  | fraction
  | zone
  | sign (c : Char)
  | blanks
  deriving DecidableEq, Repr

inductive Fault where
  | malformed
  | outOfRange (part : String)
  | extra (rest : String)
  deriving DecidableEq, Repr

def Fault.message (text : String) : Fault → String
  | .malformed => "parsing time " ++ quote text
  | .outOfRange part => "parsing time " ++ quote text ++ ": " ++ part ++ " out of range"
  | .extra rest => "parsing time " ++ quote text ++ ": extra text: " ++ quote rest

structure Date where
  year : Nat := 0
  month : Nat := 1
  day : Nat := 1
  deriving DecidableEq, Repr

def isLeap (year : Nat) : Bool := year % 4 == 0 && (year % 100 != 0 || year % 400 == 0)

def daysIn (year month : Nat) : Nat :=
  if month = 2 then if isLeap year then 29 else 28
  else if [4, 6, 9, 11].contains month then 30
  else 31

def figure (c : Char) : Nat := c.toNat - '0'.toNat

def number? (padded : Bool) : List Char → Option (Nat × List Char)
  | [] => none
  | c :: rest =>
    if !c.isDigit then none
    else
      match rest with
      | d :: more =>
        if d.isDigit then some (10 * figure c + figure d, more)
        else if padded then none
        else some (figure c, rest)
      | [] => if padded then none else some (figure c, [])

def bounded (part : String) (low high : Nat) (padded : Bool) (text : List Char) : Except Fault (Nat × List Char) :=
  match number? padded text with
  | none => .error .malformed
  | some (n, rest) => if low ≤ n ∧ n ≤ high then .ok (n, rest) else .error (.outOfRange part)

def afterFraction : List Char → List Char
  | c :: d :: rest => if (c == '.' || c == ',') && d.isDigit then rest.dropWhile Char.isDigit else c :: d :: rest
  | text => text

def afterZone? : List Char → Option (List Char)
  | 'Z' :: rest => some rest
  | sign :: rest =>
    if sign == '+' || sign == '-' then
      match number? true rest with
      | some (hours, ':' :: more) =>
        (number? true more).bind fun (minutes, rest) => if hours ≤ 24 ∧ minutes ≤ 60 then some rest else none
      | _ => none
    else none
  | [] => none

def readPart (text : List Char) (date : Date) : Part → Except Fault (List Char × Date)
  | .year =>
    let figures := text.take 4
    if figures.length = 4 ∧ figures.all Char.isDigit then
      .ok (text.drop 4, { date with year := figures.foldl (fun n c => 10 * n + figure c) 0 })
    else .error .malformed
  | .month padded => do
    let (month, rest) ← bounded "month" 1 12 padded text
    .ok (rest, { date with month })
  | .day padded => do
    let (day, rest) ← bounded "day" 0 99 padded text
    .ok (rest, { date with day })
  | .hour => do return ((← bounded "hour" 0 23 false text).2, date)
  | .minute padded => do return ((← bounded "minute" 0 59 padded text).2, date)
  | .second padded => do return ((← bounded "second" 0 59 padded text).2, date)
  | .fraction => .ok (afterFraction text, date)
  | .zone =>
    match afterZone? text with
    | some rest => .ok (rest, date)
    | none => .error .malformed
  | .sign c =>
    match text with
    | d :: rest => if c = d then .ok (rest, date) else .error .malformed
    | [] => .error .malformed
  | .blanks =>
    match text with
    | ' ' :: rest => .ok (rest.dropWhile (· == ' '), date)
    | _ => .error .malformed

def readParts : List Part → List Char → Date → Except Fault Date
  | part :: parts, text, date => do
    let (rest, date) ← readPart text date part
    readParts parts rest date
  | [], [], date =>
    if 1 ≤ date.day ∧ date.day ≤ daysIn date.year date.month then .ok date else .error (.outOfRange "day")
  | [], rest, _ => .error (.extra (String.ofList rest))

def read (layout : List Part) (text : String) : Except Fault Date := readParts layout text.toList {}

end CellChain.Text.Moment
