/-! Tokens of YAML text, and what can be wrong with a text before it has any meaning. Lines and columns
count from 0. -/
namespace CellChain.Yaml

structure Mark where
  line : Nat
  column : Nat
  deriving DecidableEq, Repr, Inhabited

inductive TokenKind where
  | blockSequence
  | blockMapping
  | blockEntry
  | blockEnd
  | flowSequence
  | flowSequenceEnd
  | flowMapping
  | flowMappingEnd
  | flowEntry
  | key
  | value
  | scalar (text : String) (quoted : Bool)
  | documentStart
  | documentEnd
  | streamEnd
  deriving DecidableEq, Repr

structure Token where
  kind : TokenKind
  mark : Mark
  deriving DecidableEq, Repr

inductive Problem where
  | controlCharacter
  | noToken
  | entryNotAllowed
  | keyNotAllowed
  | valueNotAllowed
  | noColon
  | tooDeep
  | tabIndentation
  | documentMarker
  | endInScalar
  | unknownEscape
  | notHexadecimal
  | invalidCodePoint
  | noNode
  | noDash
  | noKey
  | noSequenceEnd
  | noMappingEnd
  deriving DecidableEq, Repr

def Problem.message : Problem → String
  | .controlCharacter => "control characters are not allowed"
  | .noToken => "found character that cannot start any token"
  | .entryNotAllowed => "block sequence entries are not allowed in this context"
  | .keyNotAllowed => "mapping keys are not allowed in this context"
  | .valueNotAllowed => "mapping values are not allowed in this context"
  | .noColon => "could not find expected ':'"
  | .tooDeep => "exceeded max depth of 10000"
  | .tabIndentation => "found a tab character that violates indentation"
  | .documentMarker => "found unexpected document indicator"
  | .endInScalar => "found unexpected end of stream"
  | .unknownEscape => "found unknown escape character"
  | .notHexadecimal => "did not find expected hexdecimal number"
  | .invalidCodePoint => "found invalid Unicode character escape code"
  | .noNode => "did not find expected node content"
  | .noDash => "did not find expected '-' indicator"
  | .noKey => "did not find expected key"
  | .noSequenceEnd => "did not find expected ',' or ']'"
  | .noMappingEnd => "did not find expected ',' or '\x7d'"

/-- A problem with the line where its surroundings begin and the line where it shows. Lines of
problems inside a token are told counting from 1, others from 0; line 0 is not told at all. -/
structure SyntaxError where
  problem : Problem
  context : Nat
  line : Nat
  inToken : Bool
  deriving DecidableEq, Repr

def SyntaxError.unreadable : SyntaxError := ⟨.controlCharacter, 0, 0, true⟩

def SyntaxError.message (e : SyntaxError) : String :=
  let line := if e.context ≠ 0 then e.context else e.line
  let shown := if line ≠ 0 ∧ e.inToken then line + 1 else line
  if shown = 0 then e.problem.message else "line " ++ toString shown ++ ": " ++ e.problem.message

end CellChain.Yaml
