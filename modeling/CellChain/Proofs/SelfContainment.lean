import Mathlib
import CellChain.Proofs.LoadingEnds
/-! Structs that contain themselves. A struct contains another when a value of the one has a value of the other in it,
as a member or within a tuple; what a mapping or an array refers to is elsewhere. A struct is blamed exactly when some
declared struct contains itself, and it is the first one from which such a struct is reached. -/
namespace CellChain

open Relation (ReflTransGen TransGen)
open Descent (Founded)

namespace StructDecl

inductive InValue (name : String) : Ty → Prop
  | named : InValue name (.named name)
  | written {members : List String} {types : List Ty} : InValue name (.struct name members types)
  | part {owner : String} {members : List String} {types : List Ty} {t : Ty} (inside : t ∈ types)
      (within : InValue name t) : InValue name (.struct owner members types)
  | component {types : List Ty} {t : Ty} (inside : t ∈ types) (within : InValue name t) : InValue name (.tuple types)

def Contains (table : List StructDecl) (a b : String) : Prop :=
  ∃ s, find? table a = some s ∧ ∃ t ∈ s.types, InValue b t

theorem Contains.declared {table : List StructDecl} {a b : String} (contains : Contains table a b) :
    a ∈ table.map StructDecl.name := by
  obtain ⟨s, found, -⟩ := contains
  exact declaredName found

def LeadsBack (table : List StructDecl) (name : String) : Prop :=
  ∃ m, ReflTransGen (Contains table) name m ∧ TransGen (Contains table) m m

def Seen (t : Ty) : Prop := ∀ n, n ∈ held t ↔ InValue n t

theorem seenNamed (name : String) : Seen (.named name) := by
  intro n
  rw [held, List.mem_singleton]
  constructor
  · rintro rfl
    exact .named
  · intro within
    cases within
    rfl

theorem seenKept : Ty.Kept Seen where
  builtIn := by
    intro name t found
    rcases Ty.builtInCases found with rfl | rfl | rfl | ⟨n, rfl⟩ | ⟨n, rfl⟩ <;> exact fun n => ⟨nofun, nofun⟩
  integer := fun _ _ n => ⟨nofun, nofun⟩
  array := fun _ n => ⟨nofun, nofun⟩
  mapping := fun _ _ n => ⟨nofun, nofun⟩
  tuple := by
    intro types all n
    rw [held, memHeldByAll]
    constructor
    · rintro ⟨t, inside, own⟩
      exact .component inside ((all t inside n).1 own)
    · intro within
      cases within with
      | component inside within => exact ⟨_, inside, (all _ inside n).2 within⟩

theorem holdsContains {table : List StructDecl} (seen : ∀ s ∈ table, ∀ t ∈ s.types, Seen t) :
    Holds table = Contains table := by
  funext a b
  rw [eq_iff_iff, Holds, Contains]
  refine exists_congr fun s => and_congr_right fun found => ?_
  rw [memHeldByAll]
  exact exists_congr fun t => and_congr_right fun inside => seen s (List.mem_of_find?_eq_some found) t inside b

theorem endlessIff {table : List StructDecl} (seen : ∀ s ∈ table, ∀ t ∈ s.types, Seen t) {name : String} :
    ¬Founded (Holds table) name ↔ LeadsBack table name := by
  rw [holdsContains seen, Descent.foundedIff fun _ _ => Contains.declared, not_not]
  rfl

theorem cycleDeclared {table : List StructDecl} {m : String} (cycle : TransGen (Contains table) m m) :
    m ∈ table.map StructDecl.name := by
  obtain ⟨_, first, -⟩ := TransGen.head'_iff.1 cycle
  exact first.declared

end StructDecl

namespace Description

open StructDecl (Contains LeadsBack Seen)

theorem writtenSeen (declared : List String) (v : VariableEntry) : Seen (writtenType declared v) :=
  readTypeKept StructDecl.seenKept (fun n _ => StructDecl.seenNamed n) (fun _ _ => ⟨nofun, nofun⟩) "" v []

theorem declaredTableSeen (structs : List (Located StructEntry)) :
    ∀ d ∈ declaredTable structs, ∀ t ∈ d.types, Seen t := by
  intro d inside t own
  obtain ⟨v, rfl⟩ := declaredTypes inside t own
  exact writtenSeen _ v

theorem findByName {P : String → Bool} {structs : List (Located StructEntry)} {table : List StructDecl}
    (same : table.map StructDecl.name = structs.map (·.entry.name)) :
    ((table.find? fun d => P d.name).bind fun d => structs.find? (·.entry.name == d.name)) =
      structs.find? fun s => P s.entry.name := by
  induction structs generalizing table with
  | nil =>
    rw [List.map_nil, List.map_eq_nil_iff] at same
    rw [same]
    rfl
  | cons s rest ih =>
    cases table with
    | nil => cases same
    | cons d others =>
      rw [List.map_cons, List.map_cons, List.cons.injEq] at same
      obtain ⟨name, later⟩ := same
      cases wanted : P s.entry.name with
      | true => simp [name, wanted]
      | false =>
        rw [List.find?_cons_of_neg (by rw [name, wanted]; decide), List.find?_cons_of_neg (by rw [wanted]; decide),
          ← ih later]
        refine Option.bind_congr fun found hit => List.find?_cons_of_neg ?_
        have other := List.find?_some (p := fun d : StructDecl => P d.name) hit
        rw [beq_iff_eq]
        intro equal
        rw [equal, other] at wanted
        cases wanted

open Classical in
theorem reviewFinds (structs : List (Located StructEntry)) (before : List Complaint) :
    reviewStructs structs (declaredTable structs) before = ((), before ++
      ((structs.find? fun s => LeadsBack (declaredTable structs) s.entry.name).map
        fun s => Complaint.mk (placeOf s.path s.entry.mark) (.selfContaining s.entry.name)).toList) := by
  have first := findByName (P := fun name => LeadsBack (declaredTable structs) name) (declaredTableNames structs)
  rw [← first]
  unfold reviewStructs
  rw [StructDecl.firstLoopFinds]
  simp only [StructDecl.endlessIff (declaredTableSeen structs)]
  cases (declaredTable structs).find? fun d => LeadsBack (declaredTable structs) d.name with
  | none => simp; rfl
  | some d =>
    simp only [Option.bind_some]
    cases found : structs.find? (·.entry.name == d.name) with
    | none => simp; rfl
    | some s =>
      have name := List.find?_some found
      rw [beq_iff_eq] at name
      simp [name]; rfl

theorem reviewComplains (structs : List (Located StructEntry)) (before : List Complaint) :
    (reviewStructs structs (declaredTable structs) before).2 ≠ before ↔
      ∃ s ∈ structs, TransGen (Contains (declaredTable structs)) s.entry.name s.entry.name := by
  rw [reviewFinds]
  simp only [ne_eq, List.append_right_eq_self, Option.toList_eq_nil_iff, Option.map_eq_none_iff, List.find?_eq_none,
    decide_eq_true_eq, not_forall, not_not, exists_prop]
  constructor
  · rintro ⟨s, -, m, -, cycle⟩
    have declared := StructDecl.cycleDeclared cycle
    rw [declaredTableNames] at declared
    obtain ⟨own, inside, rfl⟩ := List.mem_map.1 declared
    exact ⟨own, inside, cycle⟩
  · rintro ⟨s, inside, cycle⟩
    exact ⟨s, inside, s.entry.name, .refl, cycle⟩

/- One complaint at most, and one exactly if some declared struct contains itself. Not every struct that is blamed does:
it is the first from which the search comes to one. -/
theorem selfContainmentFound (structs : List (Located StructEntry)) (before : List Complaint) :
    (∀ more, StructDecl.firstFailing? (declaredTable structs) ((declaredTable structs).length + 1 + more)
        (declaredTable structs) [] = StructDecl.firstLoop? (declaredTable structs)) ∧
    ((reviewStructs structs (declaredTable structs) before).2 ≠ before ↔
      ∃ s ∈ structs, TransGen (Contains (declaredTable structs)) s.entry.name s.entry.name) ∧
    ∀ above s below, structs = above ++ s :: below →
      (∀ other ∈ above, ¬LeadsBack (declaredTable structs) other.entry.name) →
      LeadsBack (declaredTable structs) s.entry.name →
      reviewStructs structs (declaredTable structs) before =
        ((), before ++ [⟨placeOf s.path s.entry.mark, .selfContaining s.entry.name⟩]) := by
  classical
  refine ⟨StructDecl.firstLoopSettled _, reviewComplains structs before, ?_⟩
  intro above s below parts quiet back
  have first : structs.find? (fun s => LeadsBack (declaredTable structs) s.entry.name) = some s := by
    rw [List.find?_eq_some_iff_append]
    refine ⟨decide_eq_true back, above, below, parts, fun other inside => ?_⟩
    rw [decide_eq_false (quiet other inside)]
    rfl
  rw [reviewFinds, first]
  rfl

def orderStructs : List (Located StructEntry) :=
  [⟨"main.yaml", "Shelf", [⟨"below", "mapping(uint8 => Shelf)", ⟨2, 5⟩⟩], ⟨1, 4⟩⟩,
   ⟨"main.yaml", "Order", [⟨"count", "uint8", ⟨4, 5⟩⟩, ⟨"item", "Item", ⟨5, 5⟩⟩], ⟨3, 4⟩⟩,
   ⟨"main.yaml", "Item", [⟨"next", "tuple(uint8, Item)", ⟨7, 5⟩⟩], ⟨6, 4⟩⟩]

theorem orderBlamed : reviewStructs orderStructs (declaredTable orderStructs) [] =
    ((), [⟨⟨"main.yaml", 4, 5⟩, .selfContaining "Order"⟩]) := by
  have seen := declaredTableSeen orderStructs
  refine (selfContainmentFound orderStructs []).2.2 [_] _ [_] rfl ?_ ?_
  · rw [List.forall_mem_singleton, ← StructDecl.endlessIff seen, not_not, ← StructDecl.enterIff (.start _)]
    decide +kernel
  · rw [← StructDecl.endlessIff seen, ← StructDecl.enterIff (.start _)]
    decide +kernel

def LoopsAbove (table : List StructDecl) (structs : List (Located StructEntry)) : Prop :=
  ∀ above s below, structs = above ++ s :: below → LeadsBack table s.entry.name →
    TransGen (Contains table) s.entry.name s.entry.name ∨
      ∃ r ∈ above, TransGen (Contains table) r.entry.name r.entry.name

theorem firstLoops {table : List StructDecl} {above below : List (Located StructEntry)} {s : Located StructEntry}
    (quiet : ∀ other ∈ above, ¬LeadsBack table other.entry.name) (back : LeadsBack table s.entry.name) :
    TransGen (Contains table) s.entry.name s.entry.name ↔ LoopsAbove table (above ++ s :: below) := by
  constructor
  · intro cycle above' o below' parts leads
    rcases List.append_eq_append_iff.1 parts with ⟨middle, rfl, rest⟩ | ⟨middle, rfl, rest⟩
    · cases middle with
      | nil =>
        cases rest
        exact .inl cycle
      | cons first others =>
        cases rest
        exact .inr ⟨s, by simp, cycle⟩
    · cases middle with
      | nil =>
        cases rest
        exact .inl cycle
      | cons first others =>
        cases rest
        exact absurd leads (quiet o (by simp))
  · intro loops
    rcases loops above s below rfl back with cycle | ⟨r, inside, cycle⟩
    · exact cycle
    · exact absurd ⟨r.entry.name, .refl, cycle⟩ (quiet r inside)

/- What a complaint says of a struct is true of it exactly when loops stand above. In any case one that contains itself
is reached from it, and from none that is declared before it. -/
theorem blameDecided (structs : List (Located StructEntry)) (before new : List Complaint)
    (made : reviewStructs structs (declaredTable structs) before = ((), before ++ new)) :
    ∀ c ∈ new, ∃ above s below, structs = above ++ s :: below ∧ c.place = placeOf s.path s.entry.mark ∧
      c.fault.message = "struct " ++ s.entry.name ++ " contains itself" ∧
      LeadsBack (declaredTable structs) s.entry.name ∧
      (∀ other ∈ above, ¬LeadsBack (declaredTable structs) other.entry.name) ∧
      (TransGen (Contains (declaredTable structs)) s.entry.name s.entry.name ↔
        LoopsAbove (declaredTable structs) structs) := by
  classical
  intro c inside
  rw [reviewFinds, Prod.mk.injEq, List.append_cancel_left_eq] at made
  rw [← made.2, Option.mem_toList, Option.map_eq_some_iff] at inside
  obtain ⟨s, first, rfl⟩ := inside
  obtain ⟨hit, above, below, parts, quiet⟩ := List.find?_eq_some_iff_append.1 first
  have back : LeadsBack (declaredTable structs) s.entry.name := of_decide_eq_true hit
  have none : ∀ other ∈ above, ¬LeadsBack (declaredTable structs) other.entry.name := by
    intro other earlier
    simpa using quiet other earlier
  have exact : TransGen (Contains (declaredTable structs)) s.entry.name s.entry.name ↔
      LoopsAbove (declaredTable structs) (above ++ s :: below) := firstLoops none back
  rw [← parts] at exact
  exact ⟨above, s, below, parts, rfl, rfl, back, none, exact⟩

theorem orderHoldsNone : ∃ above s below, orderStructs = above ++ s :: below ∧ s.entry.name = "Order" ∧
    ((reviewStructs orderStructs (declaredTable orderStructs) []).2.map fun c => c.fault.message) =
      ["struct Order contains itself"] ∧
    LeadsBack (declaredTable orderStructs) s.entry.name ∧
    ¬TransGen (Contains (declaredTable orderStructs)) s.entry.name s.entry.name ∧
    ¬LoopsAbove (declaredTable orderStructs) orderStructs := by
  have messages : ((reviewStructs orderStructs (declaredTable orderStructs) []).2.map fun c => c.fault.message) =
      ["struct Order contains itself"] := by decide +kernel
  have held : ∀ d ∈ declaredTable orderStructs, "Order" ∉ StructDecl.heldByAll d.types := by decide +kernel
  obtain ⟨c, inside, message⟩ := List.mem_map.1 (messages ▸ List.mem_singleton_self _)
  obtain ⟨above, s, below, parts, -, told, back, -, decided⟩ := blameDecided orderStructs [] _ rfl c inside
  have name : s.entry.name = "Order" := by
    have written : "struct Order contains itself" = "struct " ++ "Order" ++ " contains itself" := by decide
    rw [message, written, String.append_left_inj, String.append_right_inj] at told
    exact told.symm
  have none : ¬TransGen (Contains (declaredTable orderStructs)) s.entry.name s.entry.name := by
    intro cycle
    rw [name, TransGen.tail'_iff] at cycle
    obtain ⟨m, -, edge⟩ := cycle
    rw [← StructDecl.holdsContains (declaredTableSeen orderStructs)] at edge
    obtain ⟨d, found, inside⟩ := edge
    exact held d (List.mem_of_find?_eq_some found) inside
  exact ⟨above, s, below, parts, name, messages, back, none, fun loops => none (decided.2 loops)⟩

end Description

end CellChain
