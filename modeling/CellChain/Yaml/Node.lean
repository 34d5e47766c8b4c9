import CellChain.Yaml.Lexer
/-! The tree of a YAML document, read from its tokens. -/
namespace CellChain.Yaml

inductive Node where
  | scalar (mark : Mark) (quoted : Bool) (text : String)
  | sequence (mark : Mark) (items : List Node)
  | mapping (mark : Mark) (entries : List (Node × Node))
  deriving Repr, Inhabited

namespace Node

def mark : Node → Mark
  | .scalar mark _ _ | .sequence mark _ | .mapping mark _ => mark

mutual
def depth : Node → Nat
  | .scalar .. => 0
  | .sequence _ items => itemsDepth items + 1
  | .mapping _ entries => entriesDepth entries + 1

def itemsDepth : List Node → Nat
  | [] => 0
  | item :: rest => max item.depth (itemsDepth rest)

def entriesDepth : List (Node × Node) → Nat
  | [] => 0
  | (key, value) :: rest => max (max key.depth value.depth) (entriesDepth rest)
end

def nothing (mark : Mark) : Node := .scalar mark false ""

inductive Stop where
  | exhausted
  | unfit (error : SyntaxError)

def unfit {α : Type} (problem : Problem) (context : Mark) (t : Token) : Except Stop (α × List Token) :=
  .error (.unfit ⟨problem, context.line, t.mark.line, false⟩)

abbrev NodeReader := (block indentless : Bool) → List Token → Except Stop (Node × List Token)

def optional (read : List Token → Except Stop (Node × List Token)) (absent : List TokenKind) (mark : Mark)
    (tokens : List Token) : Except Stop (Node × List Token) :=
  match tokens with
  | [] => .error .exhausted
  | t :: _ => if absent.contains t.kind then .ok (nothing mark, tokens) else read tokens

def valueAfter (read : List Token → Except Stop (Node × List Token)) (absent : List TokenKind)
    (tokens : List Token) : Except Stop (Node × List Token) :=
  match tokens with
  | [] => .error .exhausted
  | t :: rest =>
    if t.kind = .value then optional read absent t.mark rest else .ok (nothing t.mark, tokens)

def blockItems (read : NodeReader) (context : Mark) : Nat → List Token → Except Stop (List Node × List Token)
  | 0, _ | _, [] => .error .exhausted
  | n + 1, t :: rest =>
    match t.kind with
    | .blockEntry => do
      let (item, rest) ← optional (read true false) [.blockEntry, .blockEnd] t.mark rest
      let (items, rest) ← blockItems read context n rest
      .ok (item :: items, rest)
    | .blockEnd => .ok ([], rest)
    | _ => unfit .noDash context t

def indentlessItems (read : NodeReader) : Nat → List Token → Except Stop (List Node × List Token)
  | 0, _ | _, [] => .error .exhausted
  | n + 1, t :: rest =>
    if t.kind = .blockEntry then do
      let (item, rest) ← optional (read true false) [.blockEntry, .key, .value, .blockEnd] t.mark rest
      let (items, rest) ← indentlessItems read n rest
      .ok (item :: items, rest)
    else .ok ([], t :: rest)

def blockEntries (read : NodeReader) (context : Mark) :
    Nat → List Token → Except Stop (List (Node × Node) × List Token)
  | 0, _ | _, [] => .error .exhausted
  | n + 1, t :: rest =>
    match t.kind with
    | .key => do
      let absent := [.key, .value, .blockEnd]
      let (key, rest) ← optional (read true true) absent t.mark rest
      let (value, rest) ← valueAfter (read true true) absent rest
      let (entries, rest) ← blockEntries read context n rest
      .ok ((key, value) :: entries, rest)
    | .blockEnd => .ok ([], rest)
    | _ => unfit .noKey context t

def afterComma (first : Bool) (close : TokenKind) (problem : Problem) (context : Mark) (tokens : List Token) :
    Except Stop (Unit × List Token) :=
  match tokens with
  | [] => .error .exhausted
  | t :: rest =>
    if first || t.kind = close then .ok ((), tokens)
    else if t.kind = .flowEntry then .ok ((), rest)
    else unfit problem context t

def singlePair (read : NodeReader) (mark : Mark) (tokens : List Token) : Except Stop (Node × List Token) := do
  let (key, rest) ← match tokens with
    | [] => .error .exhausted
    | t :: rest =>
      if [TokenKind.value, .flowEntry, .flowSequenceEnd].contains t.kind then .ok (nothing t.mark, rest)
      else read false false tokens
  let (value, rest) ← valueAfter (read false false) [.flowEntry, .flowSequenceEnd] rest
  .ok (.mapping mark [(key, value)], rest)

def flowItems (read : NodeReader) (context : Mark) :
    Nat → Bool → List Token → Except Stop (List Node × List Token)
  | 0, _, _ => .error .exhausted
  | n + 1, first, tokens => do
    let (_, tokens) ← afterComma first .flowSequenceEnd .noSequenceEnd context tokens
    match tokens with
    | [] => .error .exhausted
    | t :: rest =>
      if t.kind = .flowSequenceEnd then .ok ([], rest)
      else
        let (item, rest) ← if t.kind = .key then singlePair read t.mark rest else read false false tokens
        let (items, rest) ← flowItems read context n false rest
        .ok (item :: items, rest)

def flowEntries (read : NodeReader) (context : Mark) :
    Nat → Bool → List Token → Except Stop (List (Node × Node) × List Token)
  | 0, _, _ => .error .exhausted
  | n + 1, first, tokens => do
    let (_, tokens) ← afterComma first .flowMappingEnd .noMappingEnd context tokens
    match tokens with
    | [] => .error .exhausted
    | t :: rest =>
      if t.kind = .flowMappingEnd then .ok ([], rest)
      else if t.kind = .key then
        let (key, rest) ← optional (read false false) [.value, .flowEntry, .flowMappingEnd] t.mark rest
        let (value, rest) ← valueAfter (read false false) [.flowEntry, .flowMappingEnd] rest
        let (entries, rest) ← flowEntries read context n false rest
        .ok ((key, value) :: entries, rest)
      else
        let (key, rest) ← read false false tokens
        let (entries, rest) ← flowEntries read context n false rest
        .ok ((key, nothing key.mark) :: entries, rest)

def read : Nat → NodeReader
  | 0, _, _, _ => .error .exhausted
  | _, _, _, [] => .error .exhausted
  | n + 1, block, indentless, t :: rest =>
    let size := rest.length + 1
    match t.kind with
    | .scalar text quoted => .ok (.scalar t.mark quoted text, rest)
    | .flowSequence => do
      let (items, rest) ← flowItems (read n) t.mark size true rest
      .ok (.sequence t.mark items, rest)
    | .flowMapping => do
      let (entries, rest) ← flowEntries (read n) t.mark size true rest
      .ok (.mapping t.mark entries, rest)
    | .blockEntry =>
      if indentless then do
        let (items, rest) ← indentlessItems (read n) (size + 1) (t :: rest)
        .ok (.sequence t.mark items, rest)
      else unfit .noNode t.mark t
    | .blockSequence =>
      if block then do
        let (items, rest) ← blockItems (read n) t.mark size rest
        .ok (.sequence t.mark items, rest)
      else unfit .noNode t.mark t
    | .blockMapping =>
      if block then do
        let (entries, rest) ← blockEntries (read n) t.mark size rest
        .ok (.mapping t.mark entries, rest)
      else unfit .noNode t.mark t
    | _ => unfit .noNode t.mark t

def document (tokens : List Token) : Except Stop (Option Node × List Token) :=
  let root (read : List Token → Except Stop (Node × List Token)) (tokens : List Token) :
      Except Stop (Option Node × List Token) := do
    let (node, rest) ← read tokens
    .ok (some node, rest)
  let read := read (tokens.length + 1) true false
  match tokens with
  | [] => .error .exhausted
  | t :: rest =>
    match t.kind with
    | .streamEnd => .ok (none, tokens)
    | .documentStart => root (optional read [.documentStart, .documentEnd, .streamEnd] t.mark) rest
    | _ => root read tokens

def parse (text : String) : Except SyntaxError (Option Node) :=
  let scan := Scan.ofText text
  match document scan.tokens with
  | .error (.unfit e) => .error e
  | .error .exhausted => scan.failure.elim (.ok none) .error
  | .ok (node, []) => scan.failure.elim (.ok node) .error
  | .ok (node, _) => .ok node

end Node

end CellChain.Yaml
