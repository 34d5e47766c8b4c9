import CellChain.Text.Notice
import CellChain.Text.Quoted
/-! The order of a contract and its ancestors. Each contract comes before its bases, the order of every base
is kept, and of two direct bases the one listed later comes first. Orders that were found are kept for the
contracts that follow. -/
namespace CellChain.Lineage

inductive Fault where
  | cyclic (path : List String)
  | unknown (name : String)
  | unmergeable (contract : String)
  deriving DecidableEq, Repr

def Fault.notice : Fault → Text.Notice
  | .cyclic path => .plain [.own "cyclic inheritance: ", .repeated (String.intercalate " -> " path)]
  | .unknown name => .plain [.own "unknown contract ", .repeated (Text.quote name)]
  | .unmergeable contract =>
    .because [.own "contract ", .repeated contract]
      (.plain [.own "linearization of inheritance graph impossible"])

def inTail (name : String) (sequences : List (List String)) : Bool :=
  sequences.any fun s => s.tail.contains name

/- The first head of a sequence that no tail holds. Nothing is taken if that one has no name. -/
def nextHead? (sequences : List (List String)) : Option String :=
  (sequences.findSome? fun s => s.head?.filter fun name => !inTail name sequences).filter (· ≠ "")

def dropHead (name : String) : List String → List String
  | [] => []
  | x :: rest => if x = name then rest else x :: rest

def mergeSteps : Nat → List (List String) → Option (List String)
  | 0, sequences => if sequences.all List.isEmpty then some [] else none
  | n + 1, sequences =>
    if sequences.all List.isEmpty then some []
    else do
      let head ← nextHead? sequences
      let rest ← mergeSteps n (sequences.map (dropHead head))
      some (head :: rest)

def merge (sequences : List (List String)) : Option (List String) :=
  mergeSteps sequences.flatten.length sequences

abbrev Graph := List (String × List String)

abbrev Known := List (String × List String)

/-- What is kept from one question to the next: the orders found so far, and the contracts whose bases are being
put in order, as a set and from the outermost to the innermost. -/
structure Progress where
  known : Known := []
  visiting : List String := []
  stack : List String := []
  deriving DecidableEq, Repr

namespace Progress

def keep (p : Progress) (name : String) (line : List String) : Progress := { p with known := (name, line) :: p.known }

def enter (p : Progress) (name : String) : Progress :=
  { p with visiting := name :: p.visiting, stack := p.stack ++ [name] }

def leave (p : Progress) (name : String) : Progress :=
  { p with visiting := p.visiting.filter (· ≠ name), stack := p.stack.dropLast }

end Progress

abbrev Search (α : Type) := EStateM Fault Progress α

def within {α : Type} (name : String) (x : Search α) : Search α := fun p =>
  match x (p.enter name) with
  | .ok a p => .ok a (p.leave name)
  | .error fault p => .error fault (p.leave name)

def each {m : Type → Type} [Monad m] (find : String → m (List String)) : List String → m (List (List String))
  | [] => pure []
  | name :: rest => do
    let line ← find name
    let lines ← each find rest
    pure (line :: lines)

def settle (find : String → Search (List String)) (name : String) (direct : List String) : Search (List String) := do
  let lines ← each find direct.reverse
  match merge (lines ++ [direct.reverse]) with
  | none => throw (.unmergeable name)
  | some ancestors =>
    modify (·.keep name (name :: ancestors))
    pure (name :: ancestors)

def search (graph : Graph) : Nat → String → Search (List String)
  | 0, name => do throw (.cyclic ((← get).stack ++ [name]))
  | n + 1, name => do
    let p ← get
    match p.known.lookup name with
    | some line => pure line
    | none =>
      if p.visiting.contains name then throw (.cyclic (p.stack ++ [name]))
      match graph.lookup name with
      | none => throw (.unknown name)
      | some direct => within name (settle (search graph n) name direct)

def linearize (graph : Graph) (name : String) : Search (List String) := search graph (graph.length + 1) name

end CellChain.Lineage
