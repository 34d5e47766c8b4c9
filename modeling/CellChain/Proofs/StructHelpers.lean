import Mathlib
import CellChain.Proofs.Collecting
import CellChain.Proofs.FragmentNames
import CellChain.Proofs.GatedLowering
/-! The helpers of structs in a program. A contract uses the structs that are reached from those it declares, from the
signatures of its public functions and from the state of its chain. Each one that can be written to cells has its three
helpers, once each, and no other name has one. -/
namespace CellChain

open Description (Settled structTable)
open StructDecl (Clear Reaches Refers Told Walk)

def InUse (table : List StructDecl) (u : SourceUnit) (c : Contract) (name : String) : Prop :=
  (∃ t ∈ c.structs, Reaches table t name) ∨
  (∃ f ∈ c.functions, f.isPublic = true ∧ ∃ v ∈ f.params ++ f.returns, Reaches table v.type name) ∨
  ∃ b ∈ u.contracts, b.name ∈ c.linearized ∧ ∃ v ∈ b.state, Reaches table v.type name

theorem headerPlain : ∀ m ∈ stateHeader, m.2.isPlain = true := by decide

namespace Lower

variable {target : Target} {u : SourceUnit} {c : Contract} {program : Program} {name ending : String}

def helperEndings : List String := ["_default", "_to_builder", "_from_slice"]

theorem helpersNamed {names : List String} {types : List Ty} {own : List Fragment}
    (ok : helpers target name names types = .ok own) : own.map Fragment.name = helperEndings.map (name ++ ·) := by
  obtain ⟨default, toBuilder, ofSlice, -, -, -, rfl⟩ := helpersOk ok
  rfl

theorem endingStemmed (known : ending ∈ helperEndings) (name : String) :
    ∃ kind ∈ [FragmentKind.structDefault, .structToBuilder, .structOfSlice], Stemmed kind name (name ++ ending) := by
  simp only [helperEndings, List.mem_cons, List.not_mem_nil, or_false] at known
  rcases known with rfl | rfl | rfl
  · exact ⟨_, by simp, .structDefault name⟩
  · exact ⟨_, by simp, .structToBuilder name⟩
  · exact ⟨_, by simp, .structOfSlice name⟩

theorem helperListed {list : List Ty} {fragments : List Fragment} (ok : structs target list = .ok fragments)
    (known : ending ∈ helperEndings) :
    name ++ ending ∈ fragments.map Fragment.name ↔
      ∃ names types, .struct name names types ∈ list ∧ Encodable name names types := by
  obtain ⟨kind, -, stemmed⟩ := endingStemmed known name
  constructor
  · intro inside
    obtain ⟨frag, mine, same⟩ := List.mem_map.1 inside
    obtain ⟨stem, names, types, own, listed, encodable, made, helper⟩ := structsOnly ok mine
    obtain rfl := (((helpersStemmed made).1 frag helper).unique stemmed same).2
    exact ⟨names, types, listed, encodable⟩
  · rintro ⟨names, types, listed, encodable⟩
    obtain ⟨own, made, all⟩ := structsEmit ok listed encodable
    have inside : name ++ ending ∈ own.map Fragment.name := by
      rw [helpersNamed made]
      exact List.mem_map_of_mem known
    exact List.map_subset _ all inside

theorem namedApart {kinds : List FragmentKind} {frag : Fragment} (named : frag.Named kinds)
    (others : ∀ kind ∈ kinds, kind ∉ [FragmentKind.structDefault, .structToBuilder, .structOfSlice])
    (known : ending ∈ helperEndings) : frag.name ≠ name ++ ending := by
  intro same
  obtain ⟨kind, helper, stemmed⟩ := endingStemmed known name
  obtain ⟨listed, stem, own⟩ := named
  exact others _ listed ((own.unique stemmed same).1 ▸ helper)

theorem helperApart {functions : List Fragment} {load store : Fragment}
    (made : Lower.functions target c.functions = .ok functions) (loads : loadState target (u.stateMembers c) = .ok load)
    (stores : storeState target (u.stateMembers c) = .ok store) (known : ending ∈ helperEndings) :
    name ++ ending ∉ (functions ++ [load, store]).map Fragment.name := by
  obtain ⟨loading, storing⟩ := stateNamed loads stores
  have differ : ∀ frag ∈ functions ++ [load, store], frag.name ≠ name ++ ending := by
    simp only [List.forall_mem_append, List.forall_mem_cons]
    refine ⟨fun frag inside => ?_, namedApart loading (by decide) known, namedApart storing (by decide) known,
      List.forall_mem_nil _⟩
    obtain ⟨_, f, -, -, serves⟩ := functionsServe made inside
    exact namedApart ⟨serves.stemmed.1, _, serves.stemmed.2⟩ (by decide) known
  intro inside
  obtain ⟨frag, mine, same⟩ := List.mem_map.1 inside
  exact differ frag mine same

theorem helperCounted (ok : lower target u c = .ok program) (known : ending ∈ helperEndings) (name : String) :
    (program.fragments.map Fragment.name).count (name ++ ending) ≤ 1 ∧
    (name ++ ending ∈ program.fragments.map Fragment.name ↔
      ∃ names types, .struct name names types ∈ usedStructs u c ∧ Encodable name names types) := by
  obtain ⟨functions, load, store, structs, made, loads, stores, helped, whole⟩ := lowerParts ok
  have apart : name ++ ending ∉ (functions ++ [load, store]).map Fragment.name := helperApart made loads stores known
  have once := structsDistinct helped (usedStructsDistinct u c)
  rw [whole, List.map_append, ← helperListed helped known]
  constructor
  · rw [List.count_append, List.count_eq_zero_of_not_mem apart, Nat.zero_add]
    exact List.nodup_iff_count_le_one.1 once _
  · rw [List.mem_append, or_iff_right apart]

theorem exposedReached (linked : u.Linked) (mem : c ∈ u.contracts) (table : List StructDecl) :
    (∃ t ∈ exposed u c, Reaches table t name) ↔ InUse table u c name := by
  constructor
  · rintro ⟨t, inside, reached⟩
    unfold exposed at inside
    rcases List.mem_append.1 inside with first | field
    · rcases List.mem_append.1 first with struct | signature
      · exact .inl ⟨t, struct, reached⟩
      · obtain ⟨f, found, inside⟩ := List.mem_flatMap.1 signature
        obtain ⟨declared, pub⟩ := List.mem_filter.1 found
        rw [types, types, ← List.map_append] at inside
        obtain ⟨v, own, rfl⟩ := List.mem_map.1 inside
        exact .inr (.inl ⟨f, declared, pub, v, own, reached⟩)
    · obtain ⟨m, found, rfl⟩ := List.mem_map.1 field
      rcases SourceUnit.stateMemberMem found with header | ⟨v, declared, same⟩
      · obtain ⟨n, refers, -⟩ := reached
        exact absurd refers (StructDecl.refersPlain (headerPlain m header) n)
      · obtain ⟨b, chained, stated⟩ := List.mem_flatMap.1 declared
        obtain ⟨known, ordered⟩ := (linked.chain mem).1 chained
        exact .inr (.inr ⟨b, known, ordered, v, stated, same ▸ reached⟩)
  · rintro (⟨t, struct, reached⟩ | ⟨f, declared, pub, v, own, reached⟩ | ⟨b, known, ordered, v, stated, reached⟩)
    · exact ⟨t, List.mem_append_left _ (List.mem_append_left _ struct), reached⟩
    · refine ⟨v.type, List.mem_append_left _ (List.mem_append_right _ ?_), reached⟩
      refine List.mem_flatMap.2 ⟨f, List.mem_filter.2 ⟨declared, pub⟩, ?_⟩
      rw [types, types, ← List.map_append]
      exact List.mem_map_of_mem own
    · have chained := (linked.chain mem).2 ⟨known, ordered⟩
      refine ⟨v.type, List.mem_append_right _ (List.mem_map.2 ⟨(v.name, v.type), ?_, rfl⟩), reached⟩
      exact List.mem_append_right _ (List.mem_flatMap.2 ⟨b, chained, List.mem_map_of_mem stated⟩)

section
variable {sources : List Description.Source} (settled : Settled sources u) (mem : c ∈ u.contracts)
include settled mem

theorem exposedFollows (target : Target) :
    Follows target (structTable sources) (exposed u c) ([], []) (collectAll [] (exposed u c) ([], [])) := by
  have closed : ∀ t ∈ exposed u c, t.Closed (structTable sources) := by
    refine exposedTyped (fun m header => ?_) settled.closed mem
    exact ⟨m.2, .plain (headerPlain m header), (StructDecl.replacePlain (headerPlain m header) _).symm⟩
  have each : ∀ t ∈ exposed u c, ∀ acc : List String × List Ty, [] ⊆ acc.1 →
      Follows target (structTable sources) [t] acc (collect [] (id t) acc) := by
    intro t inside acc start
    obtain ⟨written, own, rfl⟩ := closed t inside
    have follows : Follows target (structTable sources) [written] acc
        (collect [] (StructDecl.close (structTable sources) written) acc) :=
      collectFollows settled.apart (Description.structTableWritten sources) (StructDecl.wayStart _)
        (List.forall_mem_nil _) own acc start
    exact ⟨follows.walk.replaced (StructDecl.expandName _ _), follows.told⟩
  have all := collectAllFollows each ([], []) (List.nil_subset _)
  rwa [List.map_id] at all

theorem usedEncodable (linked : u.Linked) (target : Target) :
    (∃ names types, .struct name names types ∈ usedStructs u c ∧ Encodable name names types) ↔
      InUse (structTable sources) u c name ∧ Clear target (structTable sources) (.named name) := by
  have follows := exposedFollows settled mem target
  have told : ∀ t ∈ usedStructs u c, Told target (structTable sources) t := follows.told (List.forall_mem_nil _)
  have reached := follows.walk.listsReached name
  rw [exposedReached linked mem] at reached
  rw [← reached, List.mem_filterMap]
  constructor
  · rintro ⟨names, types, listed, encodable⟩
    obtain ⟨_, _, _, same, clear⟩ := told _ listed
    cases same
    exact ⟨⟨_, listed, rfl⟩, clear.1 (Option.isNone_iff_eq_none.1 (Option.isSome_eq_false_iff.1 encodable))⟩
  · rintro ⟨⟨t, listed, own⟩, leaves⟩
    obtain ⟨_, names, types, rfl, clear⟩ := told t listed
    cases own
    refine ⟨names, types, listed, ?_⟩
    rw [Encodable, clear.2 leaves]
    rfl

end

end Lower

/- Helpers are made for the structs in use that can be written to cells: all three of them once, and none for any other.
The structs in use are found by a search that ends, also when structs refer to themselves. -/
theorem helpersOfUsed {decoder : Description.Decoder} {w : Workspace} {path : String} {u : SourceUnit}
    (loaded : Description.load decoder w path = .ok u)
    {c : Contract} (mem : c ∈ u.contracts) {target : Target} {program : Program}
    (lowered : lower target u c = .ok program) : ∃ p, Description.sources decoder w path = .ok p ∧
      (∃ seen, Walk (structTable p.sources) (Lower.exposed u c) ([], [])
        (seen, (Lower.usedStructs u c).filterMap Ty.structName?)) ∧
      ∀ name, ((∀ ending ∈ Lower.helperEndings, (program.fragments.map Fragment.name).count (name ++ ending) = 1) ↔
          InUse (structTable p.sources) u c name ∧ Clear target (structTable p.sources) (.named name)) ∧
        ((∃ ending ∈ Lower.helperEndings, name ++ ending ∈ program.fragments.map Fragment.name) →
          InUse (structTable p.sources) u c name ∧ Clear target (structTable p.sources) (.named name)) := by
  have linked := Description.loadLinked loaded
  obtain ⟨p, found, settled⟩ := Description.loadSettled loaded mem
  refine ⟨p, found, ⟨_, (Lower.exposedFollows settled mem target).walk⟩, fun name => ?_⟩
  rw [← Lower.usedEncodable settled mem linked target]
  have counted {ending : String} (known : ending ∈ Lower.helperEndings) := Lower.helperCounted lowered known name
  refine ⟨⟨fun all => ?_, fun used ending known => ?_⟩, ?_⟩
  · have first : "_default" ∈ Lower.helperEndings := List.mem_cons_self
    refine (counted first).2.1 (List.count_pos_iff.1 ?_)
    rw [all _ first]
    exact Nat.one_pos
  · obtain ⟨once, listed⟩ := counted known
    exact Nat.le_antisymm once (List.count_pos_iff.2 (listed.2 used))
  · rintro ⟨ending, known, inside⟩
    exact (counted known).2.1 inside

def groveSources : Workspace :=
  ⟨"/grove", [("main", "contracts:
- name: Grove
  is: [Soil]
  structs: [\x7bname: Mark, members: [\x7bname: text, type: TvmSlice\x7d]\x7d]
- name: Soil
  structs:
  - \x7bname: Tree, members: [\x7bname: leaves, type: 'Leaf[]'\x7d]\x7d
  - \x7bname: Leaf, members: [\x7bname: shoots, type: 'Tree[]'\x7d]\x7d
  - name: Stone
  state: [\x7bname: trees, type: 'Tree[]'\x7d]
")]⟩

theorem groveLowers : ∃ u, Description.load Description.decode groveSources "main" = .ok u ∧ ∃ c ∈ u.contracts,
    c.structs.map Ty.structName? = [some "Mark"] ∧ ∃ program, lower {} u c = .ok program ∧
      program.fragments.map Fragment.name =
        ["c4_to_c7", "c7_to_c4", "Leaf_default", "Leaf_to_builder", "Leaf_from_slice",
        "Tree_default", "Tree_to_builder", "Tree_from_slice"] := by decide +kernel

theorem groveHelped : ∃ u, Description.load Description.decode groveSources "main" = .ok u ∧ ∃ c ∈ u.contracts,
    ∃ program, lower {} u c = .ok program ∧ ∃ p, Description.sources Description.decode groveSources "main" = .ok p ∧
      (InUse (structTable p.sources) u c "Tree" ∧ Clear {} (structTable p.sources) (.named "Tree")) ∧
      (InUse (structTable p.sources) u c "Leaf" ∧ Clear {} (structTable p.sources) (.named "Leaf")) ∧
      (InUse (structTable p.sources) u c "Mark" ∧ ¬Clear {} (structTable p.sources) (.named "Mark")) ∧
      ¬(InUse (structTable p.sources) u c "Stone" ∧ Clear {} (structTable p.sources) (.named "Stone")) := by
  obtain ⟨u, loaded, c, mem, declared, program, lowered, names⟩ := groveLowers
  obtain ⟨p, found, -, told⟩ := helpersOfUsed loaded mem lowered
  rw [names] at told
  obtain ⟨t, struct, own⟩ := List.mem_map.1 (declared ▸ List.mem_singleton_self _)
  have marked : InUse (structTable p.sources) u c "Mark" := .inl ⟨t, struct, "Mark", .struct own, .refl⟩
  refine ⟨u, loaded, c, mem, program, lowered, p, found, (told "Tree").1.1 (by decide), (told "Leaf").1.1 (by decide),
    ⟨marked, fun clear => ?_⟩, fun used => ?_⟩
  · exact absurd ((told "Mark").1.2 ⟨marked, clear⟩) (by decide)
  · exact absurd ((told "Stone").1.2 used) (by decide)

end CellChain
