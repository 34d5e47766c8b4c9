/-! Grammar rules that are tried in order. A rule reads from the front of a text; when it does not match, the
next one starts where it started. The furthest place that any rule got to is remembered, because that is where
a text that does not match is to be blamed. -/
namespace CellChain.Toml

structure Point where
  rest : List Char
  offset : Nat
  line : Nat
  deriving Repr

abbrev Rule (α : Type) := StateT Point (OptionT (StateM Nat)) α

namespace Rule

def none {α : Type} : Rule α := failure

def named {α : Type} (r : Rule α) : Rule α := do
  let before ← get
  let x ← r
  let after ← get
  if before.offset < after.offset then modifyThe Nat (max after.offset)
  pure x

def char (p : Char → Bool) : Rule Char := do
  let here ← get
  match here.rest with
  | c :: rest =>
    if p c then
      set (⟨rest, here.offset + 1, here.line + if c == '\n' || c == '\r' then 1 else 0⟩ : Point)
      pure c
    else none
  | [] => none

def exactly : List Char → Rule Unit
  | [] => pure ()
  | c :: rest => do
    let _ ← char (· == c)
    exactly rest

def token (s : String) : Rule Unit := exactly s.toList

def atEnd : Rule Unit := do
  if (← get).rest.isEmpty then pure () else none

def possibly {α : Type} (r : Rule α) : Rule (Option α) := (do return some (← r)) <|> pure Option.none

def upTo {α : Type} (r : Rule α) : Nat → Rule (List α)
  | 0 => pure []
  | n + 1 => do
    match ← possibly r with
    | some x => do
      let xs ← upTo r n
      pure (x :: xs)
    | Option.none => pure []

/-- As many times as it matches. What matches repeatedly is never empty. -/
def star {α : Type} (r : Rule α) : Rule (List α) := do upTo r ((← get).rest.length + 1)

def plus {α : Type} (r : Rule α) : Rule (List α) := do
  let x ← r
  let xs ← star r
  pure (x :: xs)

def notAhead {α : Type} (r : Rule α) : Rule Unit := do
  let here ← get
  match ← possibly r with
  | some _ => none
  | Option.none => set here

def textOf {α : Type} (r : Rule α) : Rule (List Char) := do
  let before ← get
  let _ ← r
  let after ← get
  pure (before.rest.take (after.offset - before.offset))

def line : Rule Nat := do return (← get).line

def run {α : Type} (r : Rule α) (text : List Char) : Except Nat α :=
  match (r ⟨text, 0, 1⟩).run 0 with
  | (some (x, _), _) => .ok x
  | (Option.none, furthest) => .error furthest

end Rule

end CellChain.Toml
