/-! Messages are made of phrases: the program's own words, and words repeated from its input. The two angle
marks are kept for telling the one from the other, so a question mark is shown for each of them. A message can
have another one as its cause, which is then shown without idle line ends. -/
namespace CellChain.Text

inductive Phrase where
  | own (words : String)
  | repeated (words : String)
  deriving DecidableEq, Repr

def Phrase.isRepeated : Phrase → Bool
  | .own _ => false
  | .repeated _ => true

def unmarked (c : Char) : Char := if c == '‹' || c == '›' then '?' else c

def Phrase.shown : Phrase → List Char
  | .own words => words.toList.map unmarked
  | .repeated words => ((words.toList.reverse.dropWhile fun c => c == ' ' || c == '\n').reverse).map unmarked

def joined (phrases : List Phrase) : String := String.ofList (phrases.flatMap Phrase.shown)

abbrev Shown := Char × Bool

def shown (phrases : List Phrase) : List Shown :=
  phrases.flatMap fun p => p.shown.map (·, p.isRepeated)

def shownLines : List Shown → List Shown → List (List Shown)
  | current, [] => [current.reverse]
  | current, c :: rest =>
    if c.1 == '\n' then current.reverse :: shownLines [] rest else shownLines (c :: current) rest

def isLong : List Shown → Bool
  | [] => false
  | [(c, isRepeated)] => isRepeated || 128 ≤ c.toNat
  | _ => true

/-- The lines of a message that are not empty. A line end before the first of them stays if that line is
long. -/
def compact (phrases : List Phrase) : String :=
  let lines := shownLines [] (shown phrases)
  let full := lines.filter fun line => !line.isEmpty
  let startsBelow := lines.head?.any List.isEmpty && full.head?.any isLong
  (if startsBelow then "\n" else "") ++
    String.intercalate "\n" (full.map fun line => String.ofList (line.map Prod.fst))

inductive Notice where
  | plain (phrases : List Phrase)
  | because (phrases : List Phrase) (cause : Notice)
  | foreign (text : String) (layers : List (List Phrase))
  deriving DecidableEq, Repr

namespace Notice

def layers : Notice → List (List Phrase)
  | plain phrases => [phrases]
  | because phrases cause => phrases :: cause.layers
  | foreign _ layers => layers

def asCause : Notice → String
  | foreign text _ => text
  | n => String.intercalate ": " ((n.layers.map compact).filter (· ≠ ""))

def message : Notice → String
  | plain phrases => joined phrases
  | because phrases cause => joined phrases ++ ": " ++ cause.asCause
  | foreign text _ => text

end Notice

end CellChain.Text
