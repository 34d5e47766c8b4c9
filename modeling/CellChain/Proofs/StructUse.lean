import Mathlib
import CellChain.Layout.Position
import CellChain.Proofs.LoadedTypes
/-! Structs in use. A type uses the structs that its values hold or refer to: through members and components, as values
of a mapping and as elements of an array. Structs can come back to themselves on these ways. A search that marks a
struct when it is entered, and lists it when it is left, ends all the same, and lists just the structs in use. -/
namespace CellChain

open Relation (ReflTransGen)

namespace StructDecl

inductive Refers (name : String) : Ty → Prop
  | struct {t : Ty} (own : t.structName? = some name) : Refers name t
  | component {types : List Ty} {t : Ty} (inside : t ∈ types) (within : Refers name t) : Refers name (.tuple types)
  | value {key value : Ty} (within : Refers name value) : Refers name (.mapping key value)
  | element {element : Ty} (within : Refers name element) : Refers name (.array element)

def Uses (table : List StructDecl) (a b : String) : Prop := ∃ s, find? table a = some s ∧ ∃ t ∈ s.types, Refers b t

def Reaches (table : List StructDecl) (t : Ty) (name : String) : Prop :=
  ∃ m, Refers m t ∧ ReflTransGen (Uses table) m name

inductive LeafIn (table : List StructDecl) : Ty → Ty → Prop
  | self {t : Ty} (single : t.isAggregate = false) : LeafIn table t t
  | component {types : List Ty} {t leaf : Ty} (inside : t ∈ types) (within : LeafIn table t leaf) :
      LeafIn table (.tuple types) leaf
  | member {t : Ty} {name : String} {s : StructDecl} {m leaf : Ty} (own : t.structName? = some name)
      (declared : find? table name = some s) (inside : m ∈ s.types) (within : LeafIn table m leaf) :
      LeafIn table t leaf

/- The search through the declarations from types that wait to be visited. A struct is marked when it is entered and
listed when it is left, and one that is marked is not entered. The lists are the marks and the structs listed. -/
inductive Walk (table : List StructDecl) : List Ty → List String × List String → List String × List String → Prop
  | nil {acc : List String × List String} : Walk table [] acc acc
  | marked {t : Ty} {name : String} {rest : List Ty} {seen found : List String} {after : List String × List String}
      (own : t.structName? = some name) (again : name ∈ seen) (more : Walk table rest (seen, found) after) :
      Walk table (t :: rest) (seen, found) after
  | enters {t : Ty} {name : String} {s : StructDecl} {rest : List Ty} {seen found seen' found' : List String}
      {after : List String × List String} (own : t.structName? = some name) (new : name ∉ seen)
      (declared : find? table name = some s) (members : Walk table s.types (name :: seen, found) (seen', found'))
      (more : Walk table rest (seen', found' ++ [name]) after) : Walk table (t :: rest) (seen, found) after
  | tuple {types rest : List Ty} {acc middle after : List String × List String}
      (components : Walk table types acc middle) (more : Walk table rest middle after) :
      Walk table (.tuple types :: rest) acc after
  | mapping {key value : Ty} {rest : List Ty} {acc after : List String × List String}
      (more : Walk table (value :: rest) acc after) : Walk table (.mapping key value :: rest) acc after
  | array {element : Ty} {rest : List Ty} {acc after : List String × List String}
      (more : Walk table (element :: rest) acc after) : Walk table (.array element :: rest) acc after
  | plain {t : Ty} {rest : List Ty} {acc after : List String × List String} (plain : t.isPlain = true)
      (more : Walk table rest acc after) : Walk table (t :: rest) acc after

theorem refersPlain {t : Ty} (plain : t.isPlain = true) (name : String) : ¬Refers name t := by
  intro refers
  cases refers with
  | struct own => cases t <;> simp [Ty.isPlain, Ty.structName?] at plain own
  | component | value | element => cases plain

theorem refersStruct {t : Ty} {name other : String} (own : t.structName? = some name) :
    Refers other t ↔ other = name := by
  constructor
  · intro refers
    cases refers with
    | struct same => exact Option.some.inj (same.symm.trans own)
    | component | value | element => cases own
  · rintro rfl
    exact .struct own

theorem refersTuple {types : List Ty} {name : String} : Refers name (.tuple types) ↔ ∃ t ∈ types, Refers name t := by
  constructor
  · intro refers
    cases refers with
    | struct own => cases own
    | component inside within => exact ⟨_, inside, within⟩
  · rintro ⟨t, inside, within⟩
    exact .component inside within

theorem refersMapping {key value : Ty} {name : String} : Refers name (.mapping key value) ↔ Refers name value := by
  constructor
  · intro refers
    cases refers with
    | struct own => cases own
    | value within => exact within
  · exact .value

theorem refersArray {element : Ty} {name : String} : Refers name (.array element) ↔ Refers name element := by
  constructor
  · intro refers
    cases refers with
    | struct own => cases own
    | element within => exact within
  · exact .element

namespace Walk

variable {table : List StructDecl} {agenda more : List Ty} {before middle after : List String × List String}

theorem append (first : Walk table agenda before middle) (second : Walk table more middle after) :
    Walk table (agenda ++ more) before after := by
  induction first with
  | nil => exact second
  | marked own again _ ih => exact .marked own again (ih second)
  | enters own new declared members _ _ ih => exact .enters own new declared members (ih second)
  | tuple components _ _ ih => exact .tuple components (ih second)
  | mapping _ ih => exact .mapping (ih second)
  | array _ ih => exact .array (ih second)
  | plain plain _ ih => exact .plain plain (ih second)

theorem marks (walk : Walk table agenda before after) : before.1 ⊆ after.1 := by
  induction walk with
  | nil => exact List.Subset.refl _
  | marked own again more ih => exact ih
  | enters own new declared members more inner ih =>
    exact fun n inside => ih (inner (List.mem_cons_of_mem _ inside))
  | tuple components more first second => exact List.Subset.trans first second
  | mapping more ih | array more ih => exact ih
  | plain plain more ih => exact ih

theorem covers (walk : Walk table agenda before after) : ∀ t ∈ agenda, ∀ n, Refers n t → n ∈ after.1 := by
  induction walk with
  | nil => exact List.forall_mem_nil _
  | marked own again more ih =>
    refine List.forall_mem_cons.2 ⟨fun n refers => ?_, ih⟩
    rw [(refersStruct own).1 refers]
    exact more.marks again
  | enters own new declared members more _ ih =>
    refine List.forall_mem_cons.2 ⟨fun n refers => ?_, ih⟩
    rw [(refersStruct own).1 refers]
    exact more.marks (members.marks List.mem_cons_self)
  | tuple components more first second =>
    refine List.forall_mem_cons.2 ⟨fun n refers => ?_, second⟩
    obtain ⟨t, inside, within⟩ := refersTuple.1 refers
    exact more.marks (first t inside n within)
  | mapping more ih =>
    obtain ⟨own, others⟩ := List.forall_mem_cons.1 ih
    exact List.forall_mem_cons.2 ⟨fun n refers => own n (refersMapping.1 refers), others⟩
  | array more ih =>
    obtain ⟨own, others⟩ := List.forall_mem_cons.1 ih
    exact List.forall_mem_cons.2 ⟨fun n refers => own n (refersArray.1 refers), others⟩
  | plain plain more ih =>
    exact List.forall_mem_cons.2 ⟨fun n refers => absurd refers (refersPlain plain n), ih⟩

theorem closed (walk : Walk table agenda before after) :
    ∀ n ∈ after.1, n ∉ before.1 → ∀ m, Uses table n m → m ∈ after.1 := by
  induction walk with
  | nil => exact fun n inside outside => absurd inside outside
  | marked own again more ih => exact ih
  | @enters t name s rest seen found seen' found' after own new declared members more inner ih =>
    intro n inside outside m uses
    by_cases here : n ∈ seen'
    · apply more.marks
      by_cases self : n = name
      · obtain ⟨d, again, u, member, refers⟩ := uses
        rw [self, declared] at again
        cases again
        exact members.covers u member m refers
      · exact inner n here (by simp [self, outside]) m uses
    · exact ih n inside here m uses
  | @tuple types rest acc middle after components more first second =>
    intro n inside outside m uses
    by_cases here : n ∈ middle.1
    · exact more.marks (first n here outside m uses)
    · exact second n inside here m uses
  | mapping more ih | array more ih => exact ih
  | plain plain more ih => exact ih

theorem lists (walk : Walk table agenda before after) :
    ∀ n, n ∈ after.2 ↔ n ∈ before.2 ∨ n ∈ after.1 ∧ n ∉ before.1 := by
  induction walk with
  | nil => simp
  | marked own again more ih => exact ih
  | @enters t name s rest seen found seen' found' after own new declared members more inner ih =>
    intro n
    have known := members.marks (a := n)
    have kept := more.marks (a := n)
    have self := members.marks (List.mem_cons_self (a := name))
    rw [ih n, List.mem_append, List.mem_singleton, inner n, List.mem_cons]
    rw [List.mem_cons] at known
    by_cases same : n = name
    · subst same
      simp [new, kept self]
    · simp only [same, or_false, false_or] at known ⊢
      tauto
  | @tuple types rest acc middle after components more first second =>
    intro n
    have known := components.marks (a := n)
    have kept := more.marks (a := n)
    rw [second n, first n]
    tauto
  | mapping more ih | array more ih => exact ih
  | plain plain more ih => exact ih

theorem within {S : String → Prop} (step : ∀ a b, Uses table a b → S a → S b) (walk : Walk table agenda before after)
    (start : ∀ t ∈ agenda, ∀ n, Refers n t → S n) : ∀ n ∈ after.1, n ∈ before.1 ∨ S n := by
  induction walk with
  | nil => exact fun n inside => .inl inside
  | marked own again more ih => exact ih (List.forall_mem_cons.1 start).2
  | @enters t name s rest seen found seen' found' after own new declared members more inner ih =>
    obtain ⟨first, others⟩ := List.forall_mem_cons.1 start
    have entered : S name := first name (.struct own)
    intro n inside
    rcases ih others n inside with here | wanted
    · rcases inner (fun u member m refers =>
        step name m ⟨s, declared, u, member, refers⟩ entered) n here with old | wanted
      · rcases List.mem_cons.1 old with rfl | old
        · exact .inr entered
        · exact .inl old
      · exact .inr wanted
    · exact .inr wanted
  | tuple components more first second =>
    obtain ⟨own, others⟩ := List.forall_mem_cons.1 start
    intro n inside
    rcases second others n inside with here | wanted
    · exact first (fun t member m refers => own m (.component member refers)) n here
    · exact .inr wanted
  | mapping more ih =>
    obtain ⟨own, others⟩ := List.forall_mem_cons.1 start
    exact ih (List.forall_mem_cons.2 ⟨fun n refers => own n (.value refers), others⟩)
  | array more ih =>
    obtain ⟨own, others⟩ := List.forall_mem_cons.1 start
    exact ih (List.forall_mem_cons.2 ⟨fun n refers => own n (.element refers), others⟩)
  | plain plain more ih => exact ih (List.forall_mem_cons.1 start).2

theorem listsReached {seen found : List String} (walk : Walk table agenda ([], []) (seen, found)) (n : String) :
    n ∈ found ↔ ∃ t ∈ agenda, Reaches table t n := by
  rw [show n ∈ found ↔ n ∈ seen by simpa using walk.lists n]
  constructor
  · intro inside
    refine (walk.within (S := fun n => ∃ t ∈ agenda, Reaches table t n) ?_ ?_ n inside).resolve_left List.not_mem_nil
    · rintro a b edge ⟨t, listed, m, refers, onward⟩
      exact ⟨t, listed, m, refers, onward.tail edge⟩
    · exact fun t listed m refers => ⟨t, listed, m, refers, .refl⟩
  · rintro ⟨t, listed, m, refers, onward⟩
    induction onward with
    | refl => exact walk.covers t listed m refers
    | tail _ edge ih => exact walk.closed _ ih List.not_mem_nil _ edge

end Walk

end StructDecl

end CellChain
