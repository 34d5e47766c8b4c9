import Mathlib
import CellChain.Program.Lower
import CellChain.Proofs.CodecCompletion
import CellChain.Proofs.LoadedStructs
/-! How the structs of a contract are collected. Types are written out until a struct comes back to itself. Collecting
follows the declarations all the same: it goes the way of the search through them, and of each struct that it finds it
can be told from what is written out whether the struct has a leaf without an encoding. -/
namespace CellChain

open Relation (TransGen)
open Descent (Way)

namespace StructDecl

variable {table : List StructDecl} {target : Target}

def Clear (target : Target) (table : List StructDecl) (t : Ty) : Prop :=
  ∀ leaf, LeafIn table t leaf → ∃ size, leaf.leafSize? target = some size

theorem clearSingle {t : Ty} (single : t.isAggregate = false) :
    Clear target table t ↔ ∃ size, t.leafSize? target = some size := by
  constructor
  · exact fun clear => clear t (.self single)
  · intro sized leaf within
    cases within with
    | self => exact sized
    | component => cases single
    | member own => cases t <;> simp [Ty.isAggregate, Ty.structName?] at single own

theorem clearTuple {types : List Ty} : Clear target table (.tuple types) ↔ ∀ t ∈ types, Clear target table t := by
  constructor
  · exact fun clear t inside leaf within => clear leaf (.component inside within)
  · intro all leaf within
    cases within with
    | self single => cases single
    | component inside within => exact all _ inside leaf within
    | member own => cases own

theorem clearStruct {t : Ty} {name : String} {s : StructDecl} (own : t.structName? = some name)
    (declared : find? table name = some s) : Clear target table t ↔ ∀ m ∈ s.types, Clear target table m := by
  constructor
  · exact fun clear m inside leaf within => clear leaf (.member own declared inside within)
  · intro all leaf within
    cases within with
    | self single => cases t <;> simp [Ty.isAggregate, Ty.structName?] at single own
    | component => cases own
    | member again found inside within =>
      cases again.symm.trans own
      cases found.symm.trans declared
      exact all _ inside leaf within

theorem replaceAllMap (f : String → Ty) (types : List Ty) : replaceAll f types = types.map (replace f) := by
  induction types with
  | nil => rfl
  | cons t rest ih => rw [replaceAll, ih, List.map_cons]

theorem replacePlain {t : Ty} (plain : t.isPlain = true) (f : String → Ty) : replace f t = t := by
  cases t <;> simp [Ty.isPlain] at plain <;> simp only [replace]

theorem expandName (n : Nat) (path : List String) (name : String) :
    (expand table n path name).structName? = some name := by
  cases n with
  | zero => rfl
  | succ n =>
    rw [expand]
    split
    · rfl
    · split <;> rfl

theorem replaceName {f : String → Ty} (names : ∀ n, (f n).structName? = some n) (t : Ty) :
    (replace f t).structName? = t.structName? := by
  cases t <;> simp only [replace, Ty.structName?]
  exact names _

theorem Walk.replaced {f : String → Ty} (names : ∀ n, (f n).structName? = some n) {agenda : List Ty}
    {before after : List String × List String} (walk : Walk table agenda before after) :
    Walk table (agenda.map (replace f)) before after := by
  induction walk with
  | nil => exact .nil
  | marked own again more ih => exact .marked ((replaceName names _).trans own) again ih
  | enters own new declared members more inner ih =>
    exact .enters ((replaceName names _).trans own) new declared members ih
  | tuple components more first second =>
    rw [List.map_cons, replace, replaceAllMap]
    exact .tuple first second
  | mapping more ih =>
    rw [List.map_cons, replace]
    exact .mapping ih
  | array more ih =>
    rw [List.map_cons, replace]
    exact .array ih
  | plain plain more ih =>
    rw [List.map_cons, replacePlain plain]
    exact .plain plain ih

def Told (target : Target) (table : List StructDecl) (t : Ty) : Prop :=
  ∃ name members types, t = .struct name members types ∧ (t.unencodable? = none ↔ Clear target table (.named name))

def AtHand (target : Target) (table : List StructDecl) (around : List (String × Ty)) (path : List String) : Prop :=
  ∀ m ∈ path, ∃ t, around.lookup m = some t ∧ (t.unencodable? = none ↔ Clear target table (.named m))

end StructDecl

namespace Lower

open StructDecl

variable {table : List StructDecl} {target : Target} {around : List (String × Ty)}

theorem completeAllMap (types : List Ty) : completeAll around types = types.map (complete around) := by
  induction types with
  | nil => rfl
  | cons t rest ih => rw [completeAll, ih, List.map_cons]

theorem completePlain {t : Ty} (plain : t.isPlain = true) : complete around t = t := by
  cases t <;> simp [Ty.isPlain] at plain <;> simp only [complete]

theorem collectPlain {t : Ty} (plain : t.isPlain = true) (acc : List String × List Ty) :
    collect around t acc = acc := by
  cases t <;> simp [Ty.isPlain] at plain <;> simp only [collect]

/- A type that is written out and completed has a leaf without an encoding just when the declarations say so. Within
the struct that is completed the structs of `inner` are on the way; as no struct contains itself none of them is met
again, so what stays named is one of those around. -/
theorem completeClear (apart : ∀ m, ¬TransGen (Contains table) m m)
    (written : ∀ s ∈ table, ∀ t ∈ s.types, t.Written (table.map StructDecl.name)) {n : Nat} {inner path : List String}
    (way : Way (table.map StructDecl.name) n (inner ++ path)) (known : AtHand target table around path) {t : Ty}
    (own : t.Written (table.map StructDecl.name))
    (leads : ∀ m ∈ inner, ∀ x, InValue x t → TransGen (Contains table) m x) :
    (complete around (replace (expand table n (inner ++ path)) t)).unencodable? = none ↔ Clear target table t := by
  induction n generalizing inner t with
  | zero => exact way.full.elim
  | succ n ih =>
    induction own with
    | @named m listed =>
      obtain ⟨s, found⟩ := findDeclared listed
      rw [replace, expand]
      by_cases above : m ∈ inner ++ path
      · rw [if_pos (List.contains_iff_mem.2 above), complete]
        rcases List.mem_append.1 above with inside | outside
        · exact absurd (leads m inside m .named) (apart m)
        · obtain ⟨t, found, told⟩ := known m outside
          rw [found]
          exact told
      · rw [if_neg (List.contains_iff_mem.not.2 above), found]
        simp only
        rw [complete, Ty.unencodable?, completeAllMap, replaceAllMap, List.map_map, Ty.firstUnencodableAll,
          List.forall_mem_map, clearStruct (t := .named m) rfl found]
        have onward : Way (table.map StructDecl.name) n ((m :: inner) ++ path) := way.cons above listed
        refine forall₂_congr fun u inside => ih onward
          (written s (List.mem_of_find?_eq_some found) u inside) ?_
        intro p before x within
        have edge : Contains table m x := ⟨s, found, u, inside, within⟩
        rcases List.mem_cons.1 before with rfl | before
        · exact .single edge
        · exact (leads p before m .named).tail edge
    | tuple all each =>
      rw [replace, complete, Ty.unencodable?, completeAllMap, replaceAllMap, List.map_map, Ty.firstUnencodableAll,
        List.forall_mem_map, clearTuple]
      exact forall₂_congr fun u inside => each u inside fun m before x within =>
        leads m before x (.component inside within)
    | mapping _ _ =>
      simp only [replace, complete]
      rw [clearSingle rfl, Ty.unencodableSingle rfl target]
      simp [Ty.leafSize?]
    | array _ _ =>
      simp only [replace, complete]
      rw [clearSingle rfl, Ty.unencodableSingle rfl target]
      simp [Ty.leafSize?]
    | @plain t plain =>
      have single : t.parts? = none := by cases t <;> simp [Ty.isPlain] at plain <;> rfl
      have leaf : t.isAggregate = false := by cases t <;> simp [Ty.isPlain] at plain <;> rfl
      rw [replacePlain plain, completePlain plain, clearSingle leaf, Ty.unencodableSingle single target]

def listed (acc : List String × List Ty) : List String × List String := (acc.1, acc.2.filterMap Ty.structName?)

structure Follows (target : Target) (table : List StructDecl) (agenda : List Ty)
    (before after : List String × List Ty) :
    Prop where
  walk : Walk table agenda (listed before) (listed after)
  told : (∀ s ∈ before.2, Told target table s) → ∀ s ∈ after.2, Told target table s

theorem Follows.refl (acc : List String × List Ty) : Follows target table [] acc acc := ⟨.nil, id⟩

theorem Follows.append {agenda more : List Ty} {before middle after : List String × List Ty}
    (first : Follows target table agenda before middle) (second : Follows target table more middle after) :
    Follows target table (agenda ++ more) before after :=
  ⟨first.walk.append second.walk, fun told => second.told (first.told told)⟩

theorem collectAllFollows {path : List String} {f : Ty → Ty} {types : List Ty}
    (each : ∀ t ∈ types, ∀ acc : List String × List Ty, path ⊆ acc.1 →
      Follows target table [t] acc (collect around (f t) acc))
    (acc : List String × List Ty) (seen : path ⊆ acc.1) :
    Follows target table types acc (collectAll around (types.map f) acc) := by
  induction types generalizing acc with
  | nil => exact .refl acc
  | cons t rest ih =>
    obtain ⟨own, others⟩ := List.forall_mem_cons.1 each
    have first := own acc seen
    exact first.append (ih others _ (List.Subset.trans seen first.walk.marks))

theorem collectFollows (apart : ∀ m, ¬TransGen (Contains table) m m)
    (written : ∀ s ∈ table, ∀ t ∈ s.types, t.Written (table.map StructDecl.name)) {n : Nat} {path : List String}
    (way : Way (table.map StructDecl.name) n path) (known : AtHand target table around path) {t : Ty}
    (own : t.Written (table.map StructDecl.name)) :
    ∀ acc : List String × List Ty, path ⊆ acc.1 →
      Follows target table [t] acc (collect around (replace (expand table n path) t) acc) := by
  induction n generalizing path around t with
  | zero => exact way.full.elim
  | succ n ih =>
    induction own with
    | @named m declared =>
      rintro ⟨marks, structs⟩ seen
      obtain ⟨s, found⟩ := findDeclared declared
      have start : Way (table.map StructDecl.name) (n + 1) ([] ++ path) := way
      have clear := completeClear apart written start known (.named declared) (List.forall_mem_nil _)
      rw [List.nil_append] at clear
      rw [replace, expand] at clear ⊢
      by_cases above : m ∈ path
      · rw [if_pos (List.contains_iff_mem.2 above)]
        simp only [collect]
        exact ⟨.marked rfl (seen above) .nil, id⟩
      · rw [if_neg (List.contains_iff_mem.not.2 above), found] at clear ⊢
        simp only at clear ⊢
        rw [collect]
        split
        · rename_i again
          exact ⟨.marked rfl (List.contains_iff_mem.1 again) .nil, id⟩
        · rename_i new
          rw [List.contains_iff_mem] at new
          generalize whole : complete around (.struct m s.members (replaceAll (expand table n (m :: path)) s.types)) = t
            at clear ⊢
          have name : t.structName? = some m := by rw [← whole, complete]; rfl
          have told : Told target table t := ⟨m, _, _, by rw [← whole, complete], clear⟩
          have inner : AtHand target table ((m, t) :: around) (m :: path) := by
            refine List.forall_mem_cons.2 ⟨⟨t, List.lookup_cons_self, clear⟩, fun p before => ?_⟩
            obtain ⟨u, outside, own⟩ := known p before
            have other : p ≠ m := fun same => above (same ▸ before)
            exact ⟨u, by rw [List.lookup_cons, beq_false_of_ne other]; exact outside, own⟩
          have members := collectAllFollows (fun u inside => ih (way.cons above declared) inner
            (written s (List.mem_of_find?_eq_some found) u inside)) (m :: marks, structs) (List.cons_subset_cons m seen)
          rw [← replaceAllMap] at members
          refine ⟨.enters rfl new found members.walk ?_, fun before => ?_⟩
          · rw [listed, List.filterMap_append, List.filterMap_cons_some name]
            exact .nil
          · exact List.forall_mem_append.2 ⟨members.told before, List.forall_mem_singleton.2 told⟩
    | tuple all each =>
      intro acc seen
      rw [replace, collect, replaceAllMap]
      have members := collectAllFollows each acc seen
      exact ⟨.tuple members.walk .nil, members.told⟩
    | mapping _ each =>
      intro acc seen
      rw [replace, collect]
      have value := each acc seen
      exact ⟨.mapping value.walk, value.told⟩
    | array _ each =>
      intro acc seen
      rw [replace, collect]
      have element := each acc seen
      exact ⟨.array element.walk, element.told⟩
    | plain plain =>
      intro acc seen
      rw [replacePlain plain, collectPlain plain]
      exact ⟨.plain plain .nil, id⟩

end Lower

end CellChain
