import CellChain.Toml.Rule
/-! The grammar of settings files. A file is a list of statements: table headers and pairs of a key and a
value. -/
namespace CellChain.Toml

abbrev Meant := Except Nat String

inductive Value where
  | string (text : Meant)
  | integer (figures : String)
  | float (figures : String)
  | boolean
  | datetime (written : String)
  | array (items : List Value)
  | table (line : Nat) (pairs : List (Meant × Value × Nat))
  deriving Inhabited

inductive Statement where
  | table (keys : List Meant) (written : String) (line : Nat)
  | tableItem (keys : List Meant) (written : String) (line : Nat)
  | pair (key : Meant) (value : Value) (line : Nat)

namespace Grammar

open Rule

def isHex (c : Char) : Bool := c.isDigit || ('a' ≤ c && c ≤ 'f') || ('A' ≤ c && c ≤ 'F')

def hexValue (c : Char) : Nat :=
  if c.isDigit then c.toNat - '0'.toNat else if 'a' ≤ c then c.toNat - 'a'.toNat + 10 else c.toNat - 'A'.toNat + 10

def hexNumber (digits : List Char) : Nat := digits.foldl (fun n c => n * 16 + hexValue c) 0

def codePoint (digits : List Char) : Option Char :=
  let n := hexNumber digits
  if (0xd800 ≤ n ∧ n ≤ 0xdfff) ∨ 0x10ffff < n then Option.none else some (Char.ofNat n)

def ws : Rule Unit := named do
  let _ ← star (char fun c => c == ' ' || c == '\t')

def isNewline (c : Char) : Bool := c == '\n' || c == '\r'

def newline : Rule (List Char) := named (plus (char isNewline))

def wsnl : Rule Unit := named do
  let _ ← star (char fun c => c == ' ' || c == '\t' || isNewline c)

def comment : Rule Unit := named do
  token "#"
  let _ ← star (char fun c => c == '\t' || ' ' ≤ c)

def digit : Rule Char := named (char Char.isDigit)

def moreDigit : Rule Char := digit <|> do
  token "_"
  digit

def sign : Rule Unit := do
  let _ ← possibly (char fun c => c == '-' || c == '+')

def integer : Rule Unit := named do
  sign
  (do
    let _ ← char fun c => '1' ≤ c && c ≤ '9'
    let _ ← plus moreDigit) <|> (do let _ ← digit)

def fraction : Rule Unit := named do
  token "."
  let _ ← digit
  let _ ← star moreDigit

def exponent : Rule Unit := named do
  let _ ← char fun c => c == 'e' || c == 'E'
  sign
  let _ ← digit
  let _ ← star moreDigit

def float : Rule Unit := named do
  integer
  (do
    fraction
    let _ ← possibly exponent) <|> (do
    let _ ← possibly fraction
    exponent)

def digits : Nat → Rule Unit
  | 0 => pure ()
  | n + 1 => do
    let _ ← digit
    digits n

def time : Rule Unit := named do
  digits 2
  token ":"
  digits 2
  token ":"
  digits 2
  let _ ← possibly do
    token "."
    plus digit

def offset : Rule Unit := named (token "Z" <|> do
  let _ ← char fun c => c == '-' || c == '+'
  digits 2
  token ":"
  digits 2)

def date : Rule Unit := named do
  digits 4
  token "-"
  digits 2
  token "-"
  digits 2

def datetime : Rule Unit := named ((do
  date
  let _ ← possibly do
    token "T"
    time
    possibly offset) <|> time)

def simpleEscapes : List (Char × Option Char) :=
  [('b', some (Char.ofNat 8)), ('t', some '\t'), ('n', some '\n'), ('f', some (Char.ofNat 12)), ('r', some '\r'),
   ('"', some '"'), ('/', Option.none), ('\\', some '\\')]

def hexDigits : Nat → Rule (List Char)
  | 0 => pure []
  | n + 1 => do
    let c ← named (char isHex)
    let cs ← hexDigits n
    pure (c :: cs)

def escaped : Rule (Option Char) := named do
  named (token "\\")
  let c ← char fun c => (simpleEscapes.lookup c).isSome || c == 'u' || c == 'U'
  if c == 'u' then return codePoint (← hexDigits 4)
  if c == 'U' then return codePoint (← hexDigits 8)
  pure (simpleEscapes.lookup c).join

def basicChar : Rule (Option Char) := named
  ((named do return some (← char fun c => ' ' ≤ c && c != '"' && c != '\\')) <|> escaped)

def meant (cs : List (Option Char)) : Rule Meant := do
  let here ← line
  pure ((cs.mapM id).elim (.error here) fun cs => .ok (String.ofList cs))

def basicString : Rule Meant := named do
  token "\""
  let cs ← star basicChar
  token "\""
  meant cs

def literalString : Rule Meant := named do
  token "'"
  let cs ← star (named (char fun c => c == '\t' || (' ' ≤ c && c != '\'')))
  token "'"
  pure (.ok (String.ofList cs))

def longLiteralString : Rule Meant := named do
  token "'''"
  let cs ← star do
    notAhead (token "'''")
    (do return [← named (char fun c => c == '\t' || ' ' ≤ c)]) <|> newline
  token "'''"
  pure (.ok (String.ofList (cs.flatten.dropWhile isNewline)))

def longBasicString : Rule Meant := named do
  token "\"\"\""
  let parts ← star ((do return [← basicChar]) <|> (do return (← newline).map some) <|> do
    named (token "\\")
    let _ ← newline
    wsnl
    pure [])
  token "\"\"\""
  meant (parts.flatten.dropWhile fun c => c.any isNewline)

def string : Rule Meant := named (longLiteralString <|> literalString <|> longBasicString <|> basicString)

def boolean : Rule Unit := named (token "true" <|> token "false")

def isBare (c : Char) : Bool := c.isAlphanum || c == '-' || c == '_'

def key : Rule Meant := named
  ((named do return .ok (String.ofList (← plus (char isBare)))) <|> named do
    token "\""
    let cs ← star basicChar
    token "\""
    meant cs)

def pairOf (value : Rule Value) : Rule (Meant × Value × Nat) := named do
  let k ← key
  ws
  token "="
  ws
  let v ← value
  pure (k, v, ← line)

def elements (value : Rule Value) : Rule (List Value) := named do
  let first ← value
  let others ← star do
    wsnl
    let _ ← possibly comment
    wsnl
    named (token ",")
    wsnl
    let _ ← possibly comment
    wsnl
    value
  wsnl
  let _ ← possibly (named (token ","))
  wsnl
  let _ ← possibly comment
  pure (first :: others)

def figures (r : Rule Unit) : Rule String := do return String.ofList ((← textOf r).filter (· != '_'))

def array (value : Rule Value) : Rule Value := named do
  token "["
  wsnl
  let items ← possibly (elements value)
  wsnl
  token "]"
  pure (.array (items.getD []))

def inlineTable (value : Rule Value) : Rule Value := named do
  let here ← line
  token "\x7b"
  ws
  let pairs ← named (star do
    let p ← pairOf value
    let _ ← possibly (named do
      ws
      token ","
      ws)
    pure p)
  ws
  token "\x7d"
  pure (.table here pairs)

def value : Nat → Rule Value
  | 0 => Rule.none
  | n + 1 => named (
    (do return .datetime (String.ofList (← textOf datetime))) <|>
    (do return .float (← figures float)) <|>
    (do return .integer (← figures integer)) <|>
    (do return .string (← string)) <|>
    (do
      boolean
      pure .boolean) <|>
    array (value n) <|>
    inlineTable (value n))

def tableKey : Rule (List Meant × String) := named do
  let before ← get
  let first ← named key
  let others ← star do
    named do
      ws
      token "."
      ws
    named key
  let after ← get
  pure (first :: others, String.ofList (before.rest.take (after.offset - before.offset)))

def tableHeader : Rule Statement := named do
  token "["
  ws
  let (keys, written) ← tableKey
  ws
  token "]"
  pure (.table keys written (← line))

def tableItemHeader : Rule Statement := named do
  token "[["
  ws
  let (keys, written) ← tableKey
  ws
  token "]]"
  pure (.tableItem keys written (← line))

def pair (depth : Nat) : Rule Statement := do
  let (k, v, line) ← pairOf (value depth)
  pure (.pair k v line)

def expression (depth : Nat) : Rule (List Statement) := named (
  (do
    ws
    let header ← named (tableHeader <|> tableItemHeader)
    ws
    let _ ← possibly comment
    let pairs ← star do
      wsnl
      let p ← pair depth
      ws
      let _ ← possibly comment
      pure p
    pure (header :: pairs)) <|>
  (do
    ws
    let p ← pair depth
    ws
    let _ ← possibly comment
    pure [p]) <|>
  (do
    ws
    let _ ← possibly comment
    pure []))

def file (depth : Nat) : Rule (List Statement) := do
  let first ← expression depth
  let others ← star do
    let _ ← newline
    expression depth
  let _ ← possibly newline
  atEnd
  pure (first ++ others.flatten)

end Grammar

def statements (text : String) : Except Nat (List Statement) :=
  match (Grammar.file (text.length + 1)).run text.toList with
  | .ok list => .ok list
  | .error furthest => .error (1 + (text.toList.take (furthest + 1)).count '\n')

end CellChain.Toml
