import Mathlib
import CellChain.Proofs.Spelling
/-! The search for structs that contain themselves. Colours are kept from one struct to the next: those being visited
are the way to where the search is, and below those that are finished every way ends. So the search fails at the first
declared struct that leads back to one of those it leads through, though another one may be met there. -/
namespace CellChain.StructDecl

open Relation (ReflTransGen TransGen)
open Descent (Founded Way)

mutual
def held : Ty → List String
  | .named name => [name]
  | .tuple types => heldByAll types
  | _ => []

def heldByAll : List Ty → List String
  | [] => []
  | t :: rest => held t ++ heldByAll rest
end

theorem memHeldByAll {types : List Ty} {n : String} : n ∈ heldByAll types ↔ ∃ t ∈ types, n ∈ held t := by
  induction types with
  | nil => simp [heldByAll]
  | cons t rest ih => simp [heldByAll, ih]

def enterEach (f : String → Colours → Bool × Colours) : List String → Colours → Bool × Colours
  | [], c => (true, c)
  | name :: rest, c => if (f name c).1 then enterEach f rest (f name c).2 else f name c

theorem enterEachAppend (f : String → Colours → Bool × Colours) (names more : List String) (c : Colours) :
    enterEach f (names ++ more) c =
      if (enterEach f names c).1 then enterEach f more (enterEach f names c).2 else enterEach f names c := by
  induction names generalizing c with
  | nil => rfl
  | cons name rest ih =>
    cases ok : (f name c).1 with
    | true => simp [enterEach, ok, ih]
    | false => simp [enterEach, ok]

mutual
theorem visitHeld (f : String → Colours → Bool × Colours) (t : Ty) (c : Colours) :
    visit f t c = enterEach f (held t) c := by
  cases t with
  | named name =>
    rw [visit, held, enterEach, enterEach]
    split
    · rename_i ok
      exact Prod.ext ok rfl
    · rfl
  | tuple types =>
    rw [visit, held]
    exact visitAllHeld f types c
  | _ => rfl

theorem visitAllHeld (f : String → Colours → Bool × Colours) (types : List Ty) (c : Colours) :
    visitAll f types c = enterEach f (heldByAll types) c := by
  cases types with
  | nil => rfl
  | cons t rest =>
    rw [visitAll, heldByAll, enterEachAppend, visitHeld f t c]
    cases result : enterEach f (held t) c with
    | mk ok after =>
      cases ok with
      | true => simpa using visitAllHeld f rest after
      | false => rfl
end

def Holds (table : List StructDecl) (a b : String) : Prop := ∃ s, find? table a = some s ∧ b ∈ heldByAll s.types

variable {table : List StructDecl}

theorem Holds.declared {a b : String} (holds : Holds table a b) : a ∈ table.map StructDecl.name := by
  obtain ⟨s, found, -⟩ := holds
  exact declaredName found

theorem holdsIff {a b : String} : Holds table a b ↔ b ∈ heldByAll ((find? table a).elim [] types) := by
  cases found : find? table a with
  | none => simp [Holds, found, heldByAll]
  | some s => simp [Holds, found]

/- The colours of a search that came to its place along `path`. -/
structure Tracks (table : List StructDecl) (path : List String) (c : Colours) : Prop where
  active : ∀ m, c.of m = .active ↔ m ∈ path
  finished : ∀ m, c.of m = .finished → Founded (Holds table) m

theorem ofCons (name m : String) (colour : Colour) (c : Colours) :
    Colours.of ((name, colour) :: c) m = if m = name then colour else c.of m := by
  by_cases same : m = name
  · rw [if_pos same, same, Colours.of, List.lookup_cons_self]
    rfl
  · rw [if_neg same, Colours.of, List.lookup_cons, beq_false_of_ne same]
    rfl

namespace Tracks

variable {path : List String} {c : Colours} {name : String}

theorem start (table : List StructDecl) : Tracks table [] [] :=
  ⟨fun m => by simp [Colours.of], fun m ended => by simp [Colours.of] at ended⟩

theorem enter (tracks : Tracks table path c) (name : String) : Tracks table (name :: path) ((name, .active) :: c) := by
  constructor
  · intro m
    rw [ofCons, List.mem_cons]
    split
    · rename_i same
      exact iff_of_true rfl (.inl same)
    · rename_i other
      rw [tracks.active m, or_iff_right other]
  · intro m ended
    rw [ofCons] at ended
    split at ended
    · cases ended
    · exact tracks.finished m ended

theorem leave (tracks : Tracks table (name :: path) c) (new : name ∉ path) (founded : Founded (Holds table) name) :
    Tracks table path ((name, .finished) :: c) := by
  constructor
  · intro m
    rw [ofCons]
    split
    · rename_i same
      exact iff_of_false nofun (same ▸ new)
    · rename_i other
      rw [tracks.active m, List.mem_cons, or_iff_right other]
  · intro m ended
    rw [ofCons] at ended
    split at ended
    · rename_i same
      exact same ▸ founded
    · exact tracks.finished m ended

theorem unvisited (tracks : Tracks table path c) (colour : c.of name = .unvisited) : name ∉ path := by
  rw [← tracks.active, colour]
  nofun

end Tracks

def enterBelow (table : List StructDecl) (n : Nat) (name : String) (c : Colours) : Bool × Colours :=
  enterEach (enter table n) (heldByAll ((find? table name).elim [] types)) ((name, .active) :: c)

theorem enterNew {n : Nat} {name : String} {c : Colours} (new : c.of name = .unvisited) :
    enter table (n + 1) name c = if (enterBelow table n name c).1 then
      (true, (name, .finished) :: (enterBelow table n name c).2) else enterBelow table n name c := by
  simp only [enter, new, visitAllHeld]
  rw [← enterBelow]
  obtain ⟨ok, after⟩ := enterBelow table n name c
  cases ok <;> rfl

theorem enterEachEnds {f : String → Colours → Bool × Colours} {path : List String}
    (step : ∀ m c, Tracks table path c → (f m c).1 = true → Tracks table path (f m c).2 ∧ Founded (Holds table) m)
    {names : List String} {c : Colours} (tracks : Tracks table path c) (ok : (enterEach f names c).1 = true) :
    Tracks table path (enterEach f names c).2 ∧ ∀ m ∈ names, Founded (Holds table) m := by
  induction names generalizing c with
  | nil => exact ⟨tracks, List.forall_mem_nil _⟩
  | cons name rest ih =>
    rw [enterEach] at ok ⊢
    split at ok
    · rename_i first
      obtain ⟨next, own⟩ := step name c tracks first
      obtain ⟨last, others⟩ := ih next ok
      rw [if_pos first]
      exact ⟨last, List.forall_mem_cons.2 ⟨own, others⟩⟩
    · rename_i failed
      exact absurd ok failed

theorem enterEachFails {f : String → Colours → Bool × Colours} {path : List String}
    (step : ∀ m c, Tracks table path c → (f m c).1 = true → Tracks table path (f m c).2 ∧ Founded (Holds table) m)
    {names : List String} {c : Colours} (tracks : Tracks table path c) (failed : (enterEach f names c).1 = false) :
    ∃ m ∈ names, ∃ middle, Tracks table path middle ∧ (f m middle).1 = false := by
  induction names generalizing c with
  | nil => cases failed
  | cons name rest ih =>
    rw [enterEach] at failed
    split at failed
    · rename_i first
      obtain ⟨m, inside, found⟩ := ih (step name c tracks first).1 failed
      exact ⟨m, List.mem_cons_of_mem _ inside, found⟩
    · exact ⟨name, List.mem_cons_self, c, tracks, failed⟩

theorem enterEnds {n : Nat} {name : String} {path : List String} {c : Colours} (tracks : Tracks table path c)
    (ok : (enter table n name c).1 = true) :
    Tracks table path (enter table n name c).2 ∧ Founded (Holds table) name := by
  induction n generalizing name path c with
  | zero => cases ok
  | succ n ih =>
    cases colour : c.of name with
    | active => simp [enter, colour] at ok
    | finished =>
      have same : enter table (n + 1) name c = (true, c) := by simp [enter, colour]
      rw [same]
      exact ⟨tracks, tracks.finished name colour⟩
    | unvisited =>
      rw [enterNew colour] at ok ⊢
      split at ok
      · rename_i all
        obtain ⟨next, below⟩ := enterEachEnds (fun m c => ih) (tracks.enter name) all
        have founded : Founded (Holds table) name := ⟨name, fun m holds => below m (holdsIff.1 holds)⟩
        rw [if_pos all]
        exact ⟨next.leave (tracks.unvisited colour) founded, founded⟩
      · rename_i failed
        exact absurd ok failed

theorem enterFails {n : Nat} {name : String} {path : List String} {c : Colours}
    (way : Way (table.map StructDecl.name) n path) (leads : ∀ m ∈ path, TransGen (Holds table) m name)
    (tracks : Tracks table path c) (failed : (enter table n name c).1 = false) : ¬Founded (Holds table) name := by
  induction n generalizing name path c with
  | zero => exact way.full.elim
  | succ n ih =>
    cases colour : c.of name with
    -- It is on the way, and all that is on the way leads to it.
    | active => exact fun founded => founded.acyclic (leads name ((tracks.active name).1 colour))
    | finished => simp [enter, colour] at failed
    | unvisited =>
      rw [enterNew colour] at failed
      split at failed
      · cases failed
      · rename_i stuck
        obtain ⟨m, inside, middle, next, hit⟩ :=
          enterEachFails (fun m c => enterEnds) (tracks.enter name) (Bool.not_eq_true _ ▸ stuck)
        have edge : Holds table name m := holdsIff.2 inside
        have onward : ∀ p ∈ name :: path, TransGen (Holds table) p m :=
          List.forall_mem_cons.2 ⟨.single edge, fun p before => (leads p before).tail edge⟩
        have endless := ih (way.cons (tracks.unvisited colour) edge.declared) onward next hit
        exact fun founded => endless (founded.below (.single edge))

theorem enterIff {name : String} {c : Colours} (tracks : Tracks table [] c) :
    (enter table (table.length + 1) name c).1 = true ↔ Founded (Holds table) name := by
  constructor
  · exact fun ok => (enterEnds tracks ok).2
  · intro founded
    by_contra failed
    exact enterFails (wayStart table) nofun tracks (Bool.not_eq_true _ ▸ failed) founded

theorem enterEachSettled {f g : String → Colours → Bool × Colours} {path : List String}
    (step : ∀ m c, Tracks table path c → (f m c).1 = true → Tracks table path (f m c).2)
    (same : ∀ m c, Tracks table path c → g m c = f m c) {names : List String} {c : Colours}
    (tracks : Tracks table path c) : enterEach g names c = enterEach f names c := by
  induction names generalizing c with
  | nil => rfl
  | cons name rest ih =>
    rw [enterEach, enterEach, same name c tracks]
    split
    · rename_i ok
      exact ih (step name c tracks ok)
    · rfl

theorem enterSettled {n more : Nat} {name : String} {path : List String} {c : Colours}
    (way : Way (table.map StructDecl.name) n path) (tracks : Tracks table path c) :
    enter table (n + more) name c = enter table n name c := by
  induction n generalizing name path c with
  | zero => exact way.full.elim
  | succ n ih =>
    rw [Nat.succ_add]
    cases colour : c.of name with
    | active => simp only [enter, colour]
    | finished => simp only [enter, colour]
    | unvisited =>
      have same : enterBelow table (n + more) name c = enterBelow table n name c := by
        rw [enterBelow, enterBelow]
        cases found : find? table name with
        | none => rfl
        | some s =>
          have next := way.cons (tracks.unvisited colour) (declaredName found)
          exact enterEachSettled (fun m c known ok => (enterEnds known ok).1) (fun m c known => ih next known)
            (tracks.enter name)
      rw [enterNew colour, enterNew colour, same]

theorem firstFailingSettled {more : Nat} {structs : List StructDecl} {c : Colours} (tracks : Tracks table [] c) :
    firstFailing? table (table.length + 1 + more) structs c = firstFailing? table (table.length + 1) structs c := by
  induction structs generalizing c with
  | nil => rfl
  | cons s rest ih =>
    rw [firstFailing?, firstFailing?, enterSettled (wayStart table) tracks, ih tracks]
    split
    · cases result : enter table (table.length + 1) s.name c with
      | mk ok after =>
        cases ok with
        | false => rfl
        | true =>
          have next : Tracks table [] (enter table (table.length + 1) s.name c).2 :=
            (enterEnds tracks (by rw [result])).1
          rw [result] at next
          exact ih next
    · rfl

open Classical in
theorem firstFailingFinds {structs : List StructDecl} {c : Colours} (tracks : Tracks table [] c) :
    firstFailing? table (table.length + 1) structs c = structs.find? fun s => ¬Founded (Holds table) s.name := by
  induction structs generalizing c with
  | nil => rfl
  | cons s rest ih =>
    rw [firstFailing?]
    cases colour : c.of s.name with
    | active => exact absurd ((tracks.active s.name).1 colour) List.not_mem_nil
    | finished =>
      rw [if_neg nofun, List.find?_cons_of_neg (by simpa using tracks.finished s.name colour), ih tracks]
    | unvisited =>
      have decided : (enter table (table.length + 1) s.name c).1 = true ↔ Founded (Holds table) s.name :=
        enterIff tracks
      have ends (ok : (enter table (table.length + 1) s.name c).1 = true) := enterEnds tracks ok
      rw [if_pos rfl]
      cases result : enter table (table.length + 1) s.name c with
      | mk ok after =>
        rw [result] at decided ends
        cases ok with
        | true =>
          rw [List.find?_cons_of_neg (by simpa using (ends rfl).2)]
          exact ih (ends rfl).1
        | false => rw [List.find?_cons_of_pos (by simpa using decided.not.1 Bool.false_ne_true)]

open Classical in
theorem firstLoopFinds (table : List StructDecl) :
    firstLoop? table = table.find? fun s => ¬Founded (Holds table) s.name := firstFailingFinds (.start table)

theorem firstLoopSettled (table : List StructDecl) (more : Nat) :
    firstFailing? table (table.length + 1 + more) table [] = firstLoop? table := firstFailingSettled (.start table)

end CellChain.StructDecl
