import Mathlib
import CellChain.Description.Structs
import CellChain.Proofs.Descent
/-! When the name of a type comes to an end. The name of a struct is made from those of its members, so it asks for
the names of all structs below it, in mappings and arrays as well as in values. It ends exactly when none of these
structs comes back to itself, and exactly then the type that is written out has a name. -/
namespace CellChain

open Relation (ReflTransGen TransGen)
open Descent (Founded Way)

namespace Ty

mutual
def names : Ty → List String
  | .named name => [name]
  | .mapping key value => key.names ++ value.names
  | .array element => element.names
  | .tuple types | .struct _ _ types => namesOfAll types
  | _ => []

def namesOfAll : List Ty → List String
  | [] => []
  | t :: rest => t.names ++ namesOfAll rest
end

theorem memNames {types : List Ty} {n : String} : n ∈ namesOfAll types ↔ ∃ t ∈ types, n ∈ t.names := by
  induction types with
  | nil => simp [namesOfAll]
  | cons t rest ih => simp [namesOfAll, ih]

mutual
theorem canonicalIff : (t : Ty) → (t.canonical.isSome = true ↔ t.names = [])
  | .mapping key value => by
    have first := canonicalIff key
    have second := canonicalIff value
    simp only [canonical, names, List.append_eq_nil_iff, ← first, ← second]
    cases key.canonical <;> cases value.canonical <;> simp
  | .array element => by
    have inner := canonicalIff element
    simp only [canonical, names, ← inner]
    cases element.canonical <;> simp
  | .tuple types => by
    have inner := canonicalsIff types
    simp only [canonical, names, ← inner]
    cases canonicals types <;> simp
  | .struct _ _ types => by
    have inner := canonicalsIff types
    simp only [canonical, names, ← inner]
    cases canonicals types <;> simp
  | .integer true _ | .integer false _ | .named _ | .bool | .bytes _ | .cell | .address | .other _ => by
    simp [canonical, names]

theorem canonicalsIff : (types : List Ty) → ((canonicals types).isSome = true ↔ namesOfAll types = [])
  | [] => by simp [canonicals, namesOfAll]
  | t :: rest => by
    have first := canonicalIff t
    have second := canonicalsIff rest
    simp only [canonicals, namesOfAll, List.append_eq_nil_iff, ← first, ← second]
    cases t.canonical <;> cases canonicals rest <;> simp
end

end Ty

namespace StructDecl

mutual
theorem replaceNames (f : String → Ty) : (t : Ty) → (replace f t).names = t.names.flatMap fun n => (f n).names
  | .named _ => by simp [replace, Ty.names]
  | .mapping key value => by
    simp only [replace, Ty.names, List.flatMap_append, replaceNames f key, replaceNames f value]
  | .array element => by simp only [replace, Ty.names, replaceNames f element]
  | .tuple types => by simp only [replace, Ty.names, replaceAllNames f types]
  | .struct _ _ types => by simp only [replace, Ty.names, replaceAllNames f types]
  | .integer .. | .bool | .bytes _ | .cell | .address | .other _ => by simp [replace, Ty.names]

theorem replaceAllNames (f : String → Ty) :
    (types : List Ty) → Ty.namesOfAll (replaceAll f types) = (Ty.namesOfAll types).flatMap fun n => (f n).names
  | [] => rfl
  | t :: rest => by
    simp only [replaceAll, Ty.namesOfAll, List.flatMap_append, replaceNames f t, replaceAllNames f rest]
end

variable {table : List StructDecl}

def Mentions (table : List StructDecl) (a b : String) : Prop :=
  ∃ s, find? table a = some s ∧ ∃ t ∈ s.types, b ∈ t.names

inductive Spells (table : List StructDecl) : Ty → Ty → Prop
  | key {key value : Ty} : Spells table (.mapping key value) key
  | value {key value : Ty} : Spells table (.mapping key value) value
  | element {element : Ty} : Spells table (.array element) element
  | component {types : List Ty} {t : Ty} (inside : t ∈ types) : Spells table (.tuple types) t
  | part {name : String} {members : List String} {types : List Ty} {t : Ty} (inside : t ∈ types) :
      Spells table (.struct name members types) t
  | member {name : String} {s : StructDecl} {t : Ty} (found : find? table name = some s) (inside : t ∈ s.types) :
      Spells table (.named name) t

theorem foundedNames {t : Ty} (ends : Founded (Spells table) t) : ∀ n ∈ t.names, Founded (Mentions table) n := by
  induction ends with
  | intro t _ ih =>
    intro n inside
    cases t with
    | named name =>
      rw [Ty.names, List.mem_singleton] at inside
      subst inside
      refine ⟨_, fun m mentioned => ?_⟩
      obtain ⟨s, found, u, own, below⟩ := mentioned
      exact ih u (.member found own) m below
    | mapping key value =>
      rw [Ty.names, List.mem_append] at inside
      exact inside.elim (ih key .key n) (ih value .value n)
    | array element => exact ih element .element n (by rwa [Ty.names] at inside)
    | tuple types =>
      rw [Ty.names, Ty.memNames] at inside
      obtain ⟨u, own, below⟩ := inside
      exact ih u (.component own) n below
    | struct name members types =>
      rw [Ty.names, Ty.memNames] at inside
      obtain ⟨u, own, below⟩ := inside
      exact ih u (.part own) n below
    | integer | bool | bytes | cell | address | other => simp [Ty.names] at inside

mutual
theorem foundedOfNames : (t : Ty) → (∀ n ∈ t.names, Founded (Spells table) (.named n)) → Founded (Spells table) t
  | .named name, all => all name (by simp [Ty.names])
  | .mapping key value, all => by
    have first := foundedOfNames key fun n inside => all n (by simp [Ty.names, inside])
    have second := foundedOfNames value fun n inside => all n (by simp [Ty.names, inside])
    exact ⟨_, fun u asked => by cases asked <;> assumption⟩
  | .array element, all => by
    have inner := foundedOfNames element fun n inside => all n (by simp [Ty.names, inside])
    exact ⟨_, fun u asked => by cases asked; exact inner⟩
  | .tuple types, all => by
    have inner := allFoundedOfNames types fun n inside => all n (by simp [Ty.names, inside])
    exact ⟨_, fun u asked => by cases asked with | component inside => exact inner u inside⟩
  | .struct _ _ types, all => by
    have inner := allFoundedOfNames types fun n inside => all n (by simp [Ty.names, inside])
    exact ⟨_, fun u asked => by cases asked with | part inside => exact inner u inside⟩
  | .integer .., _ | .bool, _ | .bytes _, _ | .cell, _ | .address, _ | .other _, _ => ⟨_, fun u asked => by cases asked⟩

theorem allFoundedOfNames :
    (types : List Ty) → (∀ n ∈ Ty.namesOfAll types, Founded (Spells table) (.named n)) → ∀ t ∈ types,
    Founded (Spells table) t
  | [], _ => nofun
  | t :: rest, all => List.forall_mem_cons.2
    ⟨foundedOfNames t fun n inside => all n (by simp [Ty.namesOfAll, inside]),
      allFoundedOfNames rest fun n inside => all n (by simp [Ty.namesOfAll, inside])⟩
end

theorem foundedNamed {name : String} (founded : Founded (Mentions table) name) :
    Founded (Spells table) (.named name) := by
  induction founded with
  | intro name _ ih =>
    refine ⟨_, fun u asked => ?_⟩
    cases asked with
    | member found inside => exact foundedOfNames u fun n below => ih n ⟨_, found, u, inside, below⟩

theorem foundedType {t : Ty} : Founded (Spells table) t ↔ ∀ n ∈ t.names, Founded (Mentions table) n :=
  ⟨foundedNames, fun all => foundedOfNames t fun n inside => foundedNamed (all n inside)⟩

theorem declaredName {name : String} {s : StructDecl} (found : find? table name = some s) :
    name ∈ table.map StructDecl.name := by
  have same := List.find?_some found
  rw [beq_iff_eq] at same
  exact List.mem_map.2 ⟨s, List.mem_of_find?_eq_some found, same⟩

theorem foundedStruct {a : String} : Founded (Mentions table) a ↔
    ¬ ∃ b, ReflTransGen (Mentions table) a b ∧ TransGen (Mentions table) b b := by
  apply Descent.foundedIff
  intro a b edge
  obtain ⟨s, found, -⟩ := edge
  exact declaredName found

def Covers (table : List StructDecl) (t : Ty) : Prop := ∀ n ∈ t.names, n ∈ table.map StructDecl.name

theorem findDeclared {name : String} (declared : name ∈ table.map StructDecl.name) :
    ∃ s, find? table name = some s := by
  obtain ⟨s, inside, same⟩ := List.mem_map.1 declared
  rw [← Option.isSome_iff_exists, find?, List.find?_isSome]
  exact ⟨s, inside, beq_iff_eq.2 same⟩

theorem expandFounded {n : Nat} {path : List String} {name : String} (closed : (expand table n path name).names = []) :
    Founded (Mentions table) name := by
  induction n generalizing path name with
  | zero => cases closed
  | succ n ih =>
    unfold expand at closed
    split at closed
    · cases closed
    · split at closed
      · cases closed
      · rename_i s found
        rw [Ty.names, replaceAllNames, List.flatMap_eq_nil_iff] at closed
        refine ⟨_, fun m mentioned => ?_⟩
        obtain ⟨other, again, t, inside, below⟩ := mentioned
        rw [found] at again
        cases again
        exact ih (closed m (Ty.memNames.2 ⟨t, inside, below⟩))

theorem foundedExpands (complete : ∀ s ∈ table, ∀ t ∈ s.types, Covers table t) {name : String}
    (founded : Founded (Mentions table) name) {n : Nat} {path : List String}
    (declared : name ∈ table.map StructDecl.name) (way : Way (table.map StructDecl.name) n path)
    (leads : ∀ m ∈ path, TransGen (Mentions table) m name) : (expand table n path name).names = [] := by
  induction founded generalizing n path with
  | intro name under ih =>
    cases n with
    | zero => exact way.full.elim
    | succ n =>
      have off : name ∉ path := fun again => Founded.acyclic ⟨name, under⟩ (leads name again)
      obtain ⟨s, found⟩ := findDeclared declared
      rw [expand, if_neg (List.contains_iff_mem.not.2 off), found]
      simp only
      rw [Ty.names, replaceAllNames, List.flatMap_eq_nil_iff]
      intro m below
      obtain ⟨t, inside, own⟩ := Ty.memNames.1 below
      have edge : Mentions table name m := ⟨s, found, t, inside, own⟩
      apply ih m edge (complete s (List.mem_of_find?_eq_some found) t inside m own) (way.cons off declared)
      exact List.forall_mem_cons.2 ⟨.single edge, fun p inside => (leads p inside).tail edge⟩

theorem wayStart (table : List StructDecl) : Way (table.map StructDecl.name) (table.length + 1) [] := by
  have way := Way.start (table.map StructDecl.name)
  rwa [List.length_map] at way

theorem canonicalEnds (complete : ∀ s ∈ table, ∀ t ∈ s.types, Covers table t) {t : Ty} (covers : Covers table t) :
    (close table t).canonical.isSome = true ↔ Founded (Spells table) t := by
  rw [Ty.canonicalIff, close, replaceNames, List.flatMap_eq_nil_iff, foundedType]
  constructor
  · exact fun closed n inside => expandFounded (closed n inside)
  · intro founded n inside
    exact foundedExpands complete (founded n inside) (covers n inside) (wayStart table) nofun

end StructDecl

end CellChain
