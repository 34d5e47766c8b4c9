import CellChain.Yaml.Token
/-! Reading positions in YAML text: the characters still to come, and the scalars, gaps and comments that can be
read from there. A text is taken in blocks, and a character that is not allowed is noticed when its block is
reached. -/
namespace CellChain.Yaml

def isBlank (c : Char) : Bool := c == ' ' || c == '\t'

def isShortBreak (c : Char) : Bool := c == '\n' || c == '\r'

def isBreak (c : Char) : Bool := isShortBreak c || c == '\u0085' || c == '\u2028' || c == '\u2029'

def atBlank : List Char → Bool
  | [] => true
  | c :: _ => isBlank c || isBreak c

def isAllowed (c : Char) : Bool :=
  let n := c.toNat
  n == 0x09 || n == 0x0a || n == 0x0d || (0x20 ≤ n && n ≤ 0x7e) || n == 0x85 || (0xa0 ≤ n && n ≤ 0xfffd) ||
    0x10000 ≤ n

structure Cursor where
  rest : List Char
  index : Nat
  mark : Mark
  limit : Option Nat
  deriving Repr

namespace Cursor

def blockSize : Nat := 512

def firstRefused (space start : Nat) : Nat → List Char → Option Nat
  | _, [] => none
  | index, c :: rest =>
    let size := c.utf8Size
    let (space, start) := if space < size then (blockSize, index) else (space, start)
    if isAllowed c then firstRefused (space - size) start (index + 1) rest else some start

def ofText : List Char → Cursor
  | '\ufeff' :: rest => ⟨rest, 0, ⟨0, 0⟩, firstRefused (blockSize - '\ufeff'.utf8Size) 0 0 rest⟩
  | text => ⟨text, 0, ⟨0, 0⟩, firstRefused blockSize 0 0 text⟩

def need (c : Cursor) (n : Nat) : Except SyntaxError Unit :=
  if c.limit.any (· < c.index + n) then .error .unreadable else .ok ()

def fault (c : Cursor) (context : Mark) (problem : Problem) : SyntaxError :=
  ⟨problem, context.line, c.mark.line, true⟩

def skip (c : Cursor) (n : Nat) : Cursor :=
  { c with rest := c.rest.drop n, index := c.index + n, mark := ⟨c.mark.line, c.mark.column + n⟩ }

def skipLine (c : Cursor) : Cursor :=
  let n := match c.rest with
    | '\r' :: '\n' :: _ => 2
    | _ => 1
  { c with rest := c.rest.drop n, index := c.index + n, mark := ⟨c.mark.line + 1, 0⟩ }

def atDocumentMarker (c : Cursor) (mark : Char) : Bool :=
  c.mark.column == 0 && c.rest.take 3 == [mark, mark, mark] && atBlank (c.rest.drop 3)

def atAnyDocumentMarker (c : Cursor) : Bool := c.atDocumentMarker '-' || c.atDocumentMarker '.'

end Cursor

/-- White space inside a scalar: blanks on one line, or line breaks, the first apart from the others. After
a break that is escaped there is no first one. -/
structure Gap where
  blanks : List Char := []
  broken : Bool := false
  first : Option Char := none
  more : List Char := []

namespace Gap

def breakChar (c : Char) : Char := if c == '\u2028' || c == '\u2029' then c else '\n'

def addBreak (g : Gap) (c : Char) : Gap :=
  if g.broken then { g with more := g.more ++ [breakChar c] }
  else { blanks := [], broken := true, first := some (breakChar c) }

def addBlank (g : Gap) (c : Char) : Gap := if g.broken then g else { g with blanks := g.blanks ++ [c] }

def text (g : Gap) : List Char :=
  if !g.broken then g.blanks
  else
    match g.first with
    | none => g.more
    | some '\n' => if g.more.isEmpty then [' '] else g.more
    | some c => c :: g.more

end Gap

def readGap (context : Mark) (tabFrom : Int) : Nat → Gap → Cursor → Except SyntaxError (Gap × Cursor)
  | 0, g, c => .ok (g, c)
  | n + 1, g, c => do
    c.need 1
    match c.rest with
    | [] => .ok (g, c)
    | x :: _ =>
      if isBlank x then
        if g.broken ∧ c.mark.column < tabFrom ∧ x = '\t' then .error (c.fault context .tabIndentation)
        else readGap context tabFrom n (g.addBlank x) (c.skip 1)
      else if isBreak x then do
        c.need 2
        readGap context tabFrom n (g.addBreak x) c.skipLine
      else .ok (g, c)

def plainRun (inFlow : Bool) : List Char → List Char
  | [] => []
  | c :: rest =>
    if isBlank c || isBreak c || (c == ':' && atBlank rest) || (inFlow && ",?[]\x7b\x7d".toList.contains c) then []
    else c :: plainRun inFlow rest

def plainScalar (context : Mark) (inFlow : Bool) (indent : Int) :
    Nat → List Char → Gap → Cursor → Except SyntaxError (List Char × Bool × Cursor)
  | 0, done, g, c => .ok (done, g.broken, c)
  | n + 1, done, g, c => do
    c.need 4
    if c.atAnyDocumentMarker || c.rest.head? == some '#' then .ok (done, g.broken, c)
    else
      match plainRun inFlow c.rest with
      | [] => .ok (done, g.broken, c)
      | x :: more =>
        let run := x :: more
        let done := done ++ g.text ++ run
        let c := c.skip run.length
        c.need 2
        if !c.rest.isEmpty && atBlank c.rest then do
          let (g, c) ← readGap context indent (c.rest.length + 1) {} c
          if !inFlow && c.mark.column < indent then .ok (done, g.broken, c)
          else plainScalar context inFlow indent n done g c
        else .ok (done, false, c)

def escapes : List (Char × Nat) :=
  [('0', 0), ('a', 7), ('b', 8), ('t', 9), ('\t', 9), ('n', 10), ('v', 11), ('f', 12), ('r', 13), ('e', 27),
   (' ', 32), ('"', 34), ('\'', 39), ('\\', 92), ('N', 0x85), ('_', 0xa0), ('L', 0x2028), ('P', 0x2029)]

def codeEscapes : List (Char × Nat) := [('x', 2), ('u', 4), ('U', 8)]

def hexValue? (c : Char) : Option Nat :=
  if '0' ≤ c ∧ c ≤ '9' then some (c.toNat - '0'.toNat)
  else if 'a' ≤ c ∧ c ≤ 'f' then some (c.toNat - 'a'.toNat + 10)
  else if 'A' ≤ c ∧ c ≤ 'F' then some (c.toNat - 'A'.toNat + 10)
  else none

def hexCode? : Nat → Nat → List Char → Option Nat
  | 0, value, _ => some value
  | _ + 1, _, [] => none
  | n + 1, value, c :: rest => do hexCode? n (value * 16 + (← hexValue? c)) rest

def escaped (context : Mark) (c : Cursor) : Except SyntaxError (Char × Cursor) :=
  match c.rest with
  | [] => .error (c.fault context .unknownEscape)
  | x :: _ =>
    match escapes.lookup x, codeEscapes.lookup x with
    | some code, _ => .ok (Char.ofNat code, c.skip 1)
    | none, none => .error (c.fault context .unknownEscape)
    | none, some digits => do
      let c := c.skip 1
      c.need digits
      match hexCode? digits 0 c.rest with
      | none => .error (c.fault context .notHexadecimal)
      | some code =>
        if (0xd800 ≤ code ∧ code ≤ 0xdfff) ∨ 0x10ffff < code then .error (c.fault context .invalidCodePoint)
        else .ok (Char.ofNat code, c.skip digits)

inductive QuotedStop where
  | closed
  | gap
  | escapedBreak

def quotedRun (context : Mark) (quote : Char) :
    Nat → List Char → Cursor → Except SyntaxError (List Char × QuotedStop × Cursor)
  | 0, done, c => .ok (done, .gap, c)
  | n + 1, done, c => do
    c.need 2
    match c.rest with
    | [] => .ok (done, .gap, c)
    | x :: rest =>
      if isBlank x || isBreak x then .ok (done, .gap, c)
      else if x == quote then
        if quote == '\'' && rest.head? == some '\'' then quotedRun context quote n (done ++ ['\'']) (c.skip 2)
        else .ok (done, .closed, c.skip 1)
      else if quote == '"' && x == '\\' then
        if rest.head?.any isBreak then do
          c.need 3
          .ok (done, .escapedBreak, (c.skip 1).skipLine)
        else do
          let (value, c) ← escaped context (c.skip 1)
          quotedRun context quote n (done ++ [value]) c
      else quotedRun context quote n (done ++ [x]) (c.skip 1)

def quotedScalar (context : Mark) (quote : Char) :
    Nat → List Char → Cursor → Except SyntaxError (List Char × Cursor)
  | 0, _, c => .error (c.fault context .endInScalar)
  | n + 1, done, c => do
    let size := c.rest.length + 1
    c.need 4
    if c.atAnyDocumentMarker then .error (c.fault context .documentMarker)
    else if c.rest.isEmpty then .error (c.fault context .endInScalar)
    else
      match ← quotedRun context quote size done c with
      | (done, .closed, c) => .ok (done, c)
      | (done, .gap, c) => do
        let (g, c) ← readGap context 0 size {} c
        quotedScalar context quote n (done ++ g.text) c
      | (done, .escapedBreak, c) => do
        c.need 1
        if c.rest.head? == some quote then .ok (done, c.skip 1)
        else
          let (g, c) ← readGap context 0 size { broken := true } c
          quotedScalar context quote n (done ++ g.text) c

def commentReach : Nat := 512

def skipComment (c : Cursor) : Except SyntaxError Cursor := do
  let c := c.skip (c.rest.takeWhile (!isBreak ·)).length
  c.need 1
  .ok c

def lineComment (c : Cursor) : Except SyntaxError Cursor := do
  let blanks := (c.rest.takeWhile isBlank).length
  c.need (min (blanks + 1) commentReach)
  if blanks < commentReach && (c.rest.drop blanks).head? == some '#' then skipComment (c.skip blanks) else .ok c

/- Past a comment on a line of its own, and past white space that leads to another one. A line break that is
not in ASCII ends the search. -/
def skipComments : Nat → Cursor → Except SyntaxError Cursor
  | 0, c => .ok c
  | n + 1, c =>
    match c.rest with
    | '#' :: _ => do
      let c ← skipComment c
      let goesOn := c.rest.head?.any isShortBreak
      let gap := if goesOn then (c.rest.drop 1).takeWhile fun x => isBlank x || isShortBreak x else []
      let size := gap.length + 1
      c.need (min (size + 1) commentReach)
      if goesOn && size < commentReach && (c.rest.drop size).head? == some '#' then do
        let (_, c) ← readGap c.mark 0 (size + 1) {} c
        skipComments n c
      else .ok c
    | _ => .ok c

end CellChain.Yaml
