import CellChain.Ty.Basic
/-! Struct declarations that refer to each other by name. Types are first read with `named` for every struct;
here it is decided whether a struct contains itself, and structs are written out. -/
namespace CellChain

structure StructDecl where
  name : String
  members : List String
  types : List Ty
  deriving Repr

namespace StructDecl

def find? (table : List StructDecl) (name : String) : Option StructDecl := table.find? (·.name == name)

inductive Colour where
  | unvisited
  | active
  | finished
  deriving DecidableEq, Repr

abbrev Colours := List (String × Colour)

def Colours.of (colours : Colours) (name : String) : Colour := (colours.lookup name).getD .unvisited

/- Visits the structs that a value of a type holds in itself, until a visit fails. What a mapping or an array refers
to is elsewhere. -/
mutual
def visit (enter : String → Colours → Bool × Colours) : Ty → Colours → Bool × Colours
  | .named name, colours => enter name colours
  | .tuple types, colours => visitAll enter types colours
  | _, colours => (true, colours)

def visitAll (enter : String → Colours → Bool × Colours) : List Ty → Colours → Bool × Colours
  | [], colours => (true, colours)
  | t :: rest, colours =>
    match visit enter t colours with
    | (true, colours) => visitAll enter rest colours
    | (false, colours) => (false, colours)
end

def enter (table : List StructDecl) : Nat → String → Colours → Bool × Colours
  | 0, _, colours => (false, colours)
  | n + 1, name, colours =>
    match colours.of name with
    | .active => (false, colours)
    | .finished => (true, colours)
    | .unvisited =>
      match visitAll (enter table n) ((find? table name).elim [] types) ((name, .active) :: colours) with
      | (true, colours) => (true, (name, .finished) :: colours)
      | (false, colours) => (false, colours)

def firstFailing? (table : List StructDecl) (bound : Nat) : List StructDecl → Colours → Option StructDecl
  | [], _ => none
  | s :: rest, colours =>
    if colours.of s.name = .unvisited then
      match enter table bound s.name colours with
      | (true, colours) => firstFailing? table bound rest colours
      | (false, _) => some s
    else firstFailing? table bound rest colours

def firstLoop? (table : List StructDecl) : Option StructDecl := firstFailing? table (table.length + 1) table []

mutual
def replace (f : String → Ty) : Ty → Ty
  | .named name => f name
  | .mapping key value => .mapping (replace f key) (replace f value)
  | .array element => .array (replace f element)
  | .tuple types => .tuple (replaceAll f types)
  | .struct name members types => .struct name members (replaceAll f types)
  | t => t

def replaceAll (f : String → Ty) : List Ty → List Ty
  | [] => []
  | t :: rest => replace f t :: replaceAll f rest
end

def expand (table : List StructDecl) : Nat → List String → String → Ty
  | 0, _, name => .named name
  | n + 1, path, name =>
    if path.contains name then .named name
    else
      match find? table name with
      | none => .named name
      | some s => .struct name s.members (replaceAll (expand table n (name :: path)) s.types)

def close (table : List StructDecl) (t : Ty) : Ty := replace (expand table (table.length + 1) []) t

end StructDecl

end CellChain
