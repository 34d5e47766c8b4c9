import CellChain.Yaml.Cursor
/-! From YAML text to tokens. Indentation opens and closes blocks, and a scalar or a bracket turns out to be a
key only when a colon follows; until then it is kept as a possible key with the place of its token. Tokens are
handed out in order, a few of them behind the one read last. -/
namespace CellChain.Yaml

/-- Something that will be a key if a colon follows. At the indentation of the block it has to be one. -/
structure PossibleKey where
  required : Bool
  number : Nat
  index : Nat
  mark : Mark
  deriving Repr

structure KeySlot where
  key : Option PossibleKey := none
  number : Nat := 0
  mark : Mark := ⟨0, 0⟩
  deriving Repr

structure Lexer where
  cursor : Cursor
  indent : Int := -1
  outerIndents : List Int := []
  keyAllowed : Bool := true
  slot : KeySlot := {}
  outerSlots : List KeySlot := []
  kept : List (Nat × Nat) := []
  given : Nat := 0
  waiting : List Token := []
  deriving Repr

namespace Lexer

abbrev Lex := Except SyntaxError Lexer

def depthLimit : Nat := 10000

def inFlow (l : Lexer) : Bool := !l.outerSlots.isEmpty

def mark (l : Lexer) : Mark := l.cursor.mark

def number (l : Lexer) : Nat := l.given + l.waiting.length

def fail {α : Type} (l : Lexer) (context : Mark) (problem : Problem) : Except SyntaxError α :=
  .error (l.cursor.fault context problem)

def add (l : Lexer) (kind : TokenKind) (mark : Mark) : Lexer := { l with waiting := l.waiting ++ [⟨kind, mark⟩] }

def insert (l : Lexer) (number : Nat) (kind : TokenKind) (mark : Mark) : Lexer :=
  if number < l.given then l.add kind mark
  else
    let before := number - l.given
    { l with waiting := l.waiting.take before ++ ⟨kind, mark⟩ :: l.waiting.drop before }

def isLive (l : Lexer) (k : PossibleKey) : Bool := k.mark.line == l.mark.line && l.cursor.index ≤ k.index + 1024

def withoutKey (l : Lexer) : Lexer := { l with slot := { l.slot with key := none } }

def release (l : Lexer) (number : Nat) : Lexer := { l with kept := l.kept.filter (·.1 != number) }

def dropKey (l : Lexer) : Lex :=
  match l.slot.key with
  | some k => if k.required then l.fail k.mark .noColon else .ok (l.withoutKey.release k.number)
  | none => .ok l

def saveKey (l : Lexer) : Lex :=
  if l.keyAllowed then do
    let required := !l.inFlow && l.indent == l.mark.column
    let k : PossibleKey := { required, number := l.number, index := l.cursor.index, mark := l.mark }
    let l ← l.dropKey
    .ok { l with slot := ⟨some k, l.number, l.mark⟩, kept := (l.number, l.outerSlots.length) :: l.kept }
  else .ok l

def closeFrom (column : Int) (mark : Mark) : List Int → Int → List Token → Int × List Int × List Token
  | outer, indent, tokens =>
    if column < indent then
      match outer with
      | [] => (-1, [], ⟨.blockEnd, mark⟩ :: tokens)
      | next :: rest => closeFrom column mark rest next (⟨.blockEnd, mark⟩ :: tokens)
    else (indent, outer, tokens)

def closeBlocks (l : Lexer) (column : Int) : Lexer :=
  if l.inFlow then l
  else
    let (indent, outerIndents, tokens) := closeFrom column l.mark l.outerIndents l.indent []
    { l with indent, outerIndents, waiting := l.waiting ++ tokens }

def openBlock (l : Lexer) (column : Nat) (number : Nat) (kind : TokenKind) (mark : Mark) : Lex :=
  if !l.inFlow && l.indent < column then
    let outerIndents := l.indent :: l.outerIndents
    if depthLimit < outerIndents.length then l.fail l.slot.mark .tooDeep
    else .ok { l.insert number kind mark with indent := column, outerIndents }
  else .ok l

def skipToToken : Nat → Lexer → Lex
  | 0, l => .ok l
  | n + 1, l => do
    l.cursor.need 1
    let isMarked := l.mark.column == 0 && l.cursor.rest.head? == some '\ufeff'
    let cursor := if isMarked then l.cursor.skip 1 else l.cursor
    let tabs := l.inFlow || !l.keyAllowed
    let cursor := cursor.skip (cursor.rest.takeWhile fun c => c == ' ' || (tabs && c == '\t')).length
    cursor.need 1
    let cursor ← skipComments (cursor.rest.length + 1) cursor
    if cursor.rest.head?.any isBreak then do
      cursor.need 2
      skipToToken n { l with cursor := cursor.skipLine, keyAllowed := l.keyAllowed || !l.inFlow }
    else .ok { l with cursor }

def streamEnd (l : Lexer) : Lex := do
  let mark : Mark := if l.mark.column = 0 then l.mark else ⟨l.mark.line + 1, 0⟩
  let l := { l with cursor := { l.cursor with mark } }
  let l ← (l.closeBlocks (-1)).dropKey
  .ok ({ l with keyAllowed := false }.add .streamEnd mark)

def documentMarker (l : Lexer) (kind : TokenKind) : Lex := do
  let mark := l.mark
  let l ← (l.closeBlocks (-1)).dropKey
  .ok ({ l with keyAllowed := false, cursor := l.cursor.skip 3 }.add kind mark)

def openFlow (l : Lexer) (kind : TokenKind) : Lex := do
  let number := l.number
  let l ← l.saveKey
  let outerSlots := l.slot :: l.outerSlots
  if depthLimit < outerSlots.length then l.fail l.mark .tooDeep
  let next := { l with outerSlots, slot := ⟨none, number, l.mark⟩, keyAllowed := true, cursor := l.cursor.skip 1 }
  .ok (next.add kind l.mark)

def closeFlow (l : Lexer) (kind : TokenKind) : Lex := do
  let l ← l.dropKey
  let l := match l.outerSlots with
    | outer :: more => { l.release l.slot.number with slot := outer, outerSlots := more }
    | [] => l
  .ok ({ l with keyAllowed := false, cursor := l.cursor.skip 1 }.add kind l.mark)

def flowEntry (l : Lexer) : Lex := do
  let l ← l.dropKey
  .ok ({ l with keyAllowed := true, cursor := l.cursor.skip 1 }.add .flowEntry l.mark)

def blockEntry (l : Lexer) : Lex := do
  if !l.inFlow && !l.keyAllowed then l.fail l.mark .entryNotAllowed
  let l ← (← l.openBlock l.mark.column l.number .blockSequence l.mark).dropKey
  .ok ({ l with keyAllowed := true, cursor := l.cursor.skip 1 }.add .blockEntry l.mark)

def explicitKey (l : Lexer) : Lex := do
  if !l.inFlow && !l.keyAllowed then l.fail l.mark .keyNotAllowed
  let l ← (← l.openBlock l.mark.column l.number .blockMapping l.mark).dropKey
  .ok ({ l with keyAllowed := !l.inFlow, cursor := l.cursor.skip 1 }.add .key l.mark)

def colon (l : Lexer) : Lex := do
  let after (l : Lexer) : Lexer := { l with cursor := l.cursor.skip 1 }.add .value l.mark
  let alone (l : Lexer) : Lex := do
    if !l.inFlow && !l.keyAllowed then l.fail l.mark .valueNotAllowed
    let l ← l.openBlock l.mark.column l.number .blockMapping l.mark
    .ok (after { l with keyAllowed := !l.inFlow })
  match l.slot.key with
  | some k =>
    if l.isLive k then
      let l ← (l.insert k.number .key k.mark).openBlock k.mark.column k.number .blockMapping k.mark
      .ok (after { l.withoutKey.release k.number with keyAllowed := false })
    else if k.required then l.fail k.mark .noColon
    else alone l.withoutKey
  | none => alone l

def quoted (l : Lexer) (quote : Char) : Lex := do
  let l ← l.saveKey
  let (text, cursor) ← quotedScalar l.mark quote (l.cursor.rest.length + 1) [] (l.cursor.skip 1)
  .ok ({ l with keyAllowed := false, cursor }.add (.scalar (String.ofList text) true) l.mark)

def commented (lex : Lex) : Lex := do
  let l ← lex
  .ok { l with cursor := ← lineComment l.cursor }

def plain (l : Lexer) : Lex := do
  let l ← l.saveKey
  let (text, broken, cursor) ←
    plainScalar l.mark l.inFlow (l.indent + 1) (l.cursor.rest.length + 1) [] {} l.cursor
  let after := { l with keyAllowed := broken, cursor }.add (.scalar (String.ofList text) false) l.mark
  if broken then .ok after else commented (.ok after)

def indicators : List Char := "-?:,[]\x7b\x7d#&*!|>'\"%@\x60".toList

def next (l : Lexer) : Lex := do
  let l ← skipToToken (l.cursor.rest.length + 1) l
  let l := l.closeBlocks l.mark.column
  l.cursor.need 4
  match l.cursor.rest with
  | [] => l.streamEnd
  | c :: rest =>
    if l.cursor.atDocumentMarker '-' then l.documentMarker .documentStart
    else if l.cursor.atDocumentMarker '.' then l.documentMarker .documentEnd
    else if c == '[' then commented (l.openFlow .flowSequence)
    else if c == '\x7b' then commented (l.openFlow .flowMapping)
    else if c == ']' then commented (l.closeFlow .flowSequenceEnd)
    else if c == '\x7d' then commented (l.closeFlow .flowMappingEnd)
    else if c == ',' then commented l.flowEntry
    else if c == '-' && atBlank rest then l.blockEntry
    else if c == '?' && (l.inFlow || atBlank rest) then commented l.explicitKey
    else if c == ':' && (l.inFlow || atBlank rest) then commented l.colon
    else if c == '\'' || c == '"' then commented (l.quoted c)
    else if !(isBlank c || isBreak c || indicators.contains c) || (c == '-' && !(rest.head?.any isBlank)) ||
        (!l.inFlow && (c == '?' || c == ':') && !atBlank rest) then l.plain
    else l.fail l.mark .noToken

def keeper? (l : Lexer) : Option (Nat × PossibleKey) := do
  let depth ← l.kept.lookup l.given
  let slot ← (l.slot :: l.outerSlots).reverse[depth]?
  some (depth, ← slot.key)

def clear (l : Lexer) (depth : Nat) : Lexer :=
  let level := l.outerSlots.length
  if depth = level then l.withoutKey
  else { l with outerSlots := l.outerSlots.modify (level - 1 - depth) fun s => { s with key := none } }

def lookahead : Nat := 3

def isAhead (l : Lexer) : Bool :=
  lookahead ≤ l.waiting.length || (l.waiting.getLast?.any fun t => t.kind = .streamEnd)

/-- The lexer that hands out the next token, if it can: others wait behind it, and it is not kept back by a key
that can still be completed. -/
def ready (l : Lexer) : Except SyntaxError (Option Lexer) :=
  if !l.isAhead then .ok none
  else
    match l.keeper? with
    | none => .ok (some l)
    | some (depth, k) =>
      if l.isLive k then .ok none
      else if k.required then l.fail k.mark .noColon
      else .ok (some (l.clear depth))

end Lexer

structure Scan where
  tokens : List Token
  failure : Option SyntaxError
  deriving Repr

namespace Scan

def run : Nat → List Token → Lexer → Scan
  | 0, done, _ => ⟨done.reverse, none⟩
  | n + 1, done, l =>
    let failed (e : SyntaxError) : Scan := ⟨done.reverse, some e⟩
    match l.ready with
    | .error e => failed e
    | .ok none =>
      match l.next with
      | .ok l => run n done l
      | .error e => failed e
    | .ok (some l) =>
      match l.waiting with
      | [] => ⟨done.reverse, none⟩
      | t :: rest =>
        if t.kind = .streamEnd then ⟨(t :: done).reverse, none⟩
        else run n (t :: done) { l with given := l.given + 1, waiting := rest }

def ofText (text : String) : Scan := run (8 * (text.length + 4)) [] { cursor := Cursor.ofText text.toList }

end Scan

end CellChain.Yaml
