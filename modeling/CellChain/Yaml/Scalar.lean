import CellChain.Text.Decimal
import CellChain.Text.Moment
/-! What the text of a scalar stands for. A quoted one is text; a plain one may be nothing, a truth value,
a number, a date or the sign that the entries of other mappings belong here too. -/
namespace CellChain.Yaml

inductive Scalar where
  | null
  | bool (value : Bool)
  | int (value : Int)
  | float (value : Float)
  | timestamp
  | merge
  | str

namespace Scalar

def tag : Scalar → String
  | .null => "!!null"
  | .bool _ => "!!bool"
  | .int _ => "!!int"
  | .float _ => "!!float"
  | .timestamp => "!!timestamp"
  | .merge => "!!merge"
  | .str => "!!str"

def digitValue? (c : Char) : Option Nat :=
  if '0' ≤ c ∧ c ≤ '9' then some (c.toNat - '0'.toNat)
  else if 'a' ≤ c ∧ c ≤ 'f' then some (c.toNat - 'a'.toNat + 10)
  else if 'A' ≤ c ∧ c ≤ 'F' then some (c.toNat - 'A'.toNat + 10)
  else none

def inBase? (base : Nat) (digits : List Char) : Option Nat :=
  if digits.isEmpty then none
  else
    digits.foldlM (fun n c => do
      let d ← digitValue? c
      if d < base then some (n * base + d) else none) 0

def natural? : List Char → Option Nat
  | '0' :: 'x' :: rest | '0' :: 'X' :: rest => inBase? 16 rest
  | '0' :: 'o' :: rest | '0' :: 'O' :: rest => inBase? 8 rest
  | '0' :: 'b' :: rest | '0' :: 'B' :: rest => inBase? 2 rest
  | ['0'] => some 0
  | '0' :: rest => inBase? 8 rest
  | digits => inBase? 10 digits

def signed? (natural? : List Char → Option Nat) : List Char → Option Int
  | '-' :: rest => (natural? rest).bind fun n => if n ≤ 9223372036854775808 then some (-n) else none
  | '+' :: rest => (natural? rest).bind fun n => if n < 9223372036854775808 then some n else none
  | text => (natural? text).bind fun n => if n < 18446744073709551616 then some n else none

def integer? : List Char → Option Int := signed? natural?

def markedInteger? : List Char → Option Int
  | '0' :: 'b' :: rest => signed? (inBase? 2) rest
  | '-' :: '0' :: 'b' :: rest => signed? (inBase? 2) ('-' :: rest)
  | '0' :: 'o' :: rest => signed? (inBase? 8) rest
  | '-' :: '0' :: 'o' :: rest => signed? (inBase? 8) ('-' :: rest)
  | _ => none

def infinity : Float := 1 / 0

def words : List (List String × Scalar) :=
  [(["", "~", "null", "Null", "NULL"], .null),
   (["true", "True", "TRUE"], .bool true),
   (["false", "False", "FALSE"], .bool false),
   ([".nan", ".NaN", ".NAN"], .float (0 / 0)),
   ([".inf", ".Inf", ".INF", "+.inf", "+.Inf", "+.INF"], .float infinity),
   (["-.inf", "-.Inf", "-.INF"], .float (-infinity)),
   (["<<"], .merge)]

def momentLayouts : List (List Text.Moment.Part) :=
  let date : List Text.Moment.Part := [.year, .sign '-', .month false, .sign '-', .day false]
  let time : List Text.Moment.Part := [.hour, .sign ':', .minute false, .sign ':', .second false, .fraction]
  [date ++ [.sign 'T'] ++ time ++ [.zone], date ++ [.sign 't'] ++ time ++ [.zone], date ++ [.blanks] ++ time, date]

def isMoment (text : String) : Bool := momentLayouts.any fun layout => (Text.Moment.read layout text).isOk

def ofNumber (text : String) : Scalar :=
  if isMoment text then .timestamp
  else
    let plain := text.toList.filter (· != '_')
    match integer? plain, Text.fraction? plain, markedInteger? plain with
    | some n, _, _ => .int n
    | none, some x, _ => .float x
    | none, none, some n => .int n
    | none, none, none => .str

def resolve (quoted : Bool) (text : String) : Scalar :=
  if quoted then .str
  else
    match words.find? fun (spellings, _) => spellings.contains text with
    | some (_, value) => value
    | none =>
      match text.toList with
      | '.' :: rest => ((Text.fraction? ('.' :: rest)).map Scalar.float).getD .str
      | c :: _ => if c.isDigit || c == '+' || c == '-' then ofNumber text else .str
      | [] => .str

end Scalar

end CellChain.Yaml
