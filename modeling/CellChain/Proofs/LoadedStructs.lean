import Mathlib
import CellChain.Proofs.SelfContainment
import CellChain.Proofs.StructUse
/-! The structs of a unit that was loaded. Types are read with structs named, and named structs are declared. In the
contracts they are written out. No struct contains itself, as that would have been complained of. -/
namespace CellChain

open Relation (TransGen)

inductive Ty.Written (declared : List String) : Ty → Prop
  | named {n : String} (listed : n ∈ declared) : Written declared (.named n)
  | tuple {types : List Ty} (all : ∀ t ∈ types, Written declared t) : Written declared (.tuple types)
  | mapping {key value : Ty} (own : Written declared value) : Written declared (.mapping key value)
  | array {element : Ty} (own : Written declared element) : Written declared (.array element)
  | plain {t : Ty} (plain : t.isPlain = true) : Written declared t

theorem Ty.writtenKept (declared : List String) : Ty.Kept (Ty.Written declared) where
  builtIn := fun found => .plain (Ty.builtInPlain found)
  integer := fun _ _ => .plain rfl
  array := .array
  mapping := fun _ own => .mapping own
  tuple := .tuple

/- A type of a contract: one that is written, with its structs written out. -/
def Ty.Closed (table : List StructDecl) (t : Ty) : Prop :=
  ∃ written, Ty.Written (table.map StructDecl.name) written ∧ t = StructDecl.close table written

namespace Description

open StructDecl (Contains)

theorem readTypeIsWritten (declared : List String) (path : String) (v : VariableEntry) :
    Always (Ty.Written declared) (readType declared path v) :=
  readTypeKept (Ty.writtenKept declared) (fun _ listed => .named listed) (fun _ => .plain rfl) path v

theorem structTableWritten (sources : List Source) :
    ∀ s ∈ structTable sources, ∀ t ∈ s.types, t.Written ((structTable sources).map StructDecl.name) := by
  rw [structTableNames]
  intro s inside t own
  obtain ⟨v, rfl⟩ := declaredTypes inside t own
  exact readTypeIsWritten _ "" v []

def Declared.Owned (d : Declared) : Prop :=
  ∀ c ∈ d.contracts, ∀ s ∈ c.entry.structs, s.name ∈ d.structs.map (·.entry.name)

theorem declareStructsOwned (path : String) (structs : List StructEntry) (d : Declared) :
    Always (fun p => d.structs ⊆ p.1.structs ∧ ∀ s ∈ p.2, s.name ∈ p.1.structs.map (·.entry.name))
      (declareStructs path structs d) := by
  induction structs generalizing d with
  | nil => exact .pure ⟨List.Subset.refl _, List.forall_mem_nil _⟩
  | cons s rest ih =>
    unfold declareStructs
    refine .bind (P := fun p => d.structs ⊆ p.1.structs ∧ ∀ s ∈ p.2, s.name ∈ p.1.structs.map (·.entry.name)) ?_
      fun p first => .bind (ih p.1) fun q others => .pure ⟨List.Subset.trans first.1 others.1, ?_⟩
    · unfold declareStruct
      split
      · exact .bind (.any _) fun _ _ => .pure ⟨List.Subset.refl _, List.forall_mem_nil _⟩
      · exact .pure ⟨List.subset_append_left _ _, by simp⟩
    · exact List.forall_mem_append.2 ⟨fun s own => List.map_subset _ others.1 (first.2 s own), others.2⟩

theorem declareContractOwned {d : Declared} (owned : d.Owned) (path : String) (c : ContractEntry) :
    Always Declared.Owned (declareContract path d c) := by
  unfold declareContract
  simp only
  split
  · exact .bind (.any _) fun _ _ => .pure owned
  · split
    · exact .bind (.any _) fun _ _ => .pure owned
    · refine .bind (.and (declareStructsContracts path c.structs d) (declareStructsOwned path c.structs d)) ?_
      rintro p ⟨same, more, own⟩
      refine .pure ?_
      simp only [Declared.Owned, same, List.forall_mem_append, List.forall_mem_singleton]
      exact ⟨fun b earlier s inside => List.map_subset _ more (owned b earlier s inside), own⟩

theorem declareAllOwned {entries : List (Located ContractEntry)} {d : Declared} (owned : d.Owned) :
    Always Declared.Owned (declareAll entries d) := by
  induction entries generalizing d with
  | nil => exact .pure owned
  | cons c rest ih => exact .bind (declareContractOwned owned c.path c.entry) fun next kept => ih kept

theorem countedOwned (sources : List Source) : (counted sources).Owned :=
  declareAllOwned (d := {}) (List.forall_mem_nil _) []

section
variable (declared : List String) (table : List StructDecl) (path : String)

theorem readVariableGrows (v : VariableEntry) : Grows (readVariable declared table path v) := by
  refine .bind ?_ fun t => .pure _
  unfold readType
  simp only
  split
  · exact .pure _
  · exact .bind (.complain _ _) fun _ => .pure _

theorem chosenGrows {α : Type} (place : Place) (ofName? : String → Option α) (default : α) (fault : String → Fault)
    (word : String) : Grows (chosen place ofName? default fault word) := by
  unfold chosen
  split
  · exact .pure _
  · split
    · exact .pure _
    · exact .bind (.complain _ _) fun _ => .pure _

theorem readKindGrows (place : Place) (f : FunctionEntry) : Grows (readKind place f) := by
  unfold readKind
  split
  · exact .pure _
  · exact chosenGrows _ _ _ _ _

theorem readFunctionGrows (version : Int) (f : FunctionEntry) : Grows (readFunction declared table version path f) := by
  unfold readFunction
  refine .bind (readKindGrows _ f) fun _ => .bind (chosenGrows _ _ _ _ _) fun _ =>
    .bind (chosenGrows _ _ _ _ _) fun _ => ?_
  refine .bind (.each (readVariableGrows declared table path) _) fun _ => ?_
  exact .bind (.each (readVariableGrows declared table path) _) fun _ => .pure _

theorem readContractGrows (version : Int) (c : Located ContractEntry) :
    Grows (readContract declared table version c) := by
  refine .bind (.each (readVariableGrows declared table c.path) _) fun _ => ?_
  exact .bind (.each (readFunctionGrows declared table c.path version) _) fun _ => .pure _

end

theorem reviewApart (structs : List (Located StructEntry)) :
    Unless (fun _ => ∀ m, ¬TransGen (Contains (declaredTable structs)) m m)
      (reviewStructs structs (declaredTable structs)) := by
  intro before none m cycle
  have declared := StructDecl.cycleDeclared cycle
  rw [declaredTableNames] at declared
  obtain ⟨s, inside, rfl⟩ := List.mem_map.1 declared
  refine (reviewComplains structs before).2 ⟨s, inside, cycle⟩ ?_
  rw [reviewFinds] at none ⊢
  rw [none, (List.append_eq_nil_iff.1 none).1]

theorem assembleApart (sources : List Source) (main : Source) :
    Unless (fun _ => ∀ m, ¬TransGen (Contains (structTable sources)) m m) (assemble sources main) := by
  unfold assemble
  refine .after (declareAllSteady _ _) fun d same => ?_
  subst same
  refine .after (readStructsSteady _ _) fun table same => ?_
  subst same
  refine .bind (reviewApart (counted sources).structs) (fun _ => ?_) fun _ apart _ _ => apart
  refine .bind (.each (readContractGrows _ _ _) _) fun contracts => .bind (putInOrderGrows _ _ _) fun ordered => ?_
  refine .bind (.each (fun p => ?_) _) fun _ => .pure _
  exact linkContractGrows ordered p.1 p.2

theorem assembleClosed (sources : List Source) (main : Source) :
    Always (fun u => ∀ c ∈ u.contracts, c.Typed (Ty.Closed (structTable sources))) (assemble sources main) := by
  have names := structTableNames sources
  refine assembleTyped (D := fun d => d = counted sources)
    (T := fun d table => d = counted sources ∧ table = structTable sources) sources main (declareAllSteady _ _) ?_ ?_ ?_
  · rintro d rfl
    exact (readStructsSteady _ _).mono fun table same => ⟨rfl, same⟩
  · rintro d table ⟨rfl, rfl⟩ path v
    exact (readTypeIsWritten _ path v).mono fun t own => ⟨t, names ▸ own, rfl⟩
  · rintro d table ⟨rfl, rfl⟩ c inside s own
    exact ⟨.named s.name, names ▸ .named (countedOwned sources c inside s own), rfl⟩

structure Settled (sources : List Source) (u : SourceUnit) : Prop where
  apart : ∀ m, ¬TransGen (Contains (structTable sources)) m m
  closed : ∀ c ∈ u.contracts, c.Typed (Ty.Closed (structTable sources))

theorem loadSettled {decoder : Decoder} {w : Workspace} {path : String} {u : SourceUnit}
    (loaded : load decoder w path = .ok u)
    {c : Contract} (mem : c ∈ u.contracts) : ∃ p, sources decoder w path = .ok p ∧ Settled p.sources u := by
  obtain ⟨p, found, ⟨-, none⟩ | ⟨main, assembled, -⟩⟩ := loadOk loaded
  · rw [none] at mem
    cases mem
  · refine ⟨p, found, ?_, (assembleClosed p.sources main).result assembled⟩
    exact assembleApart p.sources main [] (congrArg Prod.snd assembled)

end Description

end CellChain
