import CellChain.Text.Width
import CellChain.Text.Printable
/-! Tables with borders. Cells that are wide are broken into lines so that the lines are as even as they can
be. Numbers stand on the right, other cells on the left, headings in the middle. -/
namespace CellChain.Text.Grid

def breakWidth : Nat := 30

def penalty : Nat := 100000

def costBound : Nat := 2147483647

/- The cheapest first line: its cost with what follows and its number of words. The first line may end after
`taken` words of width `phrase`, or go on; `later` has the cheapest ways for the words after each end. -/
def cheapest (limit : Nat) : Nat → Nat → List Nat → List (Nat × Nat) → Nat × Nat → Nat × Nat
  | _, _, _, [], best => best
  | taken, phrase, lengths, (cost, _) :: later, best =>
    let spare := (limit - phrase) + (phrase - limit)
    let c := spare * spare + cost + if limit < phrase then penalty else 0
    let best := if c < best.1 then (c, taken) else best
    match lengths with
    | [] => best
    | l :: rest => cheapest limit (taken + 1) (phrase + 1 + l) rest later best

/-- For each place the cheapest way to break the words from there on: the cost, and the words on the next
line. The cost of a line is the square of what it is short of or beyond the limit; the last line is free. -/
def breaks (limit : Nat) : List Nat → List (Nat × Nat)
  | [] => []
  | l :: rest =>
    let later := breaks limit rest
    if rest.foldl (fun n l => n + 1 + l) l ≤ limit then (0, rest.length + 1) :: later
    else cheapest limit 1 l rest later (costBound, rest.length + 1) :: later

def takeLines : Nat → List String → List (Nat × Nat) → List (List String)
  | 0, _, _ => []
  | n + 1, words, plan =>
    match words, plan with
    | [], _ | _, [] => []
    | _ :: _, (_, count) :: _ => words.take count :: takeLines n (words.drop count) (plan.drop count)

def splitAt (mark : Char) : List Char → List Char → List (List Char)
  | current, [] => [current.reverse]
  | current, c :: rest =>
    if c == mark then current.reverse :: splitAt mark [] rest else splitAt mark (c :: current) rest

def parts (mark : Char) (text : String) : List String := (splitAt mark [] text.toList).map String.ofList

def wrap (limit : Nat) (text : String) : List String :=
  let words := parts ' ' text
  let lengths := words.map width
  let limit := lengths.foldl max limit
  (takeLines words.length words (breaks limit lengths)).map (String.intercalate " ")

structure Cell where
  lines : List String
  width : Nat

def cell (text : String) : Cell :=
  let paragraphs := parts '\n' text
  let limit := min breakWidth ((paragraphs.map displayWidth).foldl max 0)
  let lines := wrap limit (String.intercalate " " paragraphs)
  ⟨lines, (lines.map displayWidth).foldl max limit⟩

def isDigits (cs : List Char) : Bool := !cs.isEmpty && cs.all Char.isDigit

def isGrouped (parts : List (List Char)) : Bool :=
  match parts with
  | first :: rest => isDigits first && first.length ≤ 3 && rest.all fun p => isDigits p && p.length == 3
  | [] => false

def trimmed (cs : List Char) : List Char := ((cs.dropWhile isBlank).reverse.dropWhile isBlank).reverse

def isNumber (text : String) : Bool :=
  let cs := match trimmed text.toList with
    | '-' :: rest => rest
    | cs => cs
  let isWhole (cs : List Char) : Bool := isDigits cs || isGrouped (splitAt ',' [] cs)
  match splitAt '.' [] cs with
  | [whole] => isWhole whole
  | [whole, places] => isWhole whole && isDigits places
  | _ => false

def blanks (n : Nat) : String := String.ofList (List.replicate n ' ')

def atLeft (w : Nat) (s : String) : String := s ++ blanks (w - displayWidth s)
def atRight (w : Nat) (s : String) : String := blanks (w - displayWidth s) ++ s

def inMiddle (w : Nat) (s : String) : String :=
  let gap := w - displayWidth s
  blanks (gap / 2) ++ s ++ blanks (gap - gap / 2)

def aligned (w : Nat) (s : String) : String := if isNumber s then atRight w s else atLeft w s

def border (widths : List Nat) : String :=
  "+" ++ String.join (widths.map fun w => String.ofList (List.replicate (w + 2) '-') ++ "+") ++ "\n"

def rule (cells : List String) : String := "|" ++ String.join (cells.map fun c => " " ++ c ++ " |") ++ "\n"

def rowText (widths : List Nat) (cells : List Cell) : String :=
  let height := (cells.map fun c => c.lines.length).foldl max 0
  String.join ((List.range height).map fun k =>
    rule ((widths.zip cells).map fun (w, c) => aligned w ((c.lines[k]?).getD "")))

def columnWidths (rows : List (List Cell)) (widths : List Nat) : List Nat :=
  rows.foldl (fun widths row => (widths.zip row).map fun (w, c) => max w c.width) widths

def render (headings : List String) (rows : List (List String)) : String :=
  let cells := rows.map fun row => row.map cell
  let widths := columnWidths cells (headings.map displayWidth)
  border widths ++
  rule ((widths.zip headings).map fun (w, h) => inMiddle w h) ++
  border widths ++
  String.join (cells.map (rowText widths)) ++
  border widths

end CellChain.Text.Grid
