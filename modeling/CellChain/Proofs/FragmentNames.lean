import Mathlib
import CellChain.Proofs.Lowered
import CellChain.Proofs.Overriding
/-! The names of the fragments of a program. A name has a stem, which a function or a struct gives, and an ending that
tells the kind of the fragment, so fragments of one name are of one kind and have one stem. Structs are collected once
each. Public functions can share a stem, but only when one of them is left out of the comparison of names. -/
namespace CellChain

inductive Stemmed : FragmentKind → String → String → Prop
  | decode (stem : String) : Stemmed .decode stem (stem ++ "_decode")
  | encode (stem : String) : Stemmed .encode stem (stem ++ "_encode")
  | loadState : Stemmed .loadState "" "c4_to_c7"
  | storeState : Stemmed .storeState "" "c7_to_c4"
  | structDefault (stem : String) : Stemmed .structDefault stem (stem ++ "_default")
  | structToBuilder (stem : String) : Stemmed .structToBuilder stem (stem ++ "_to_builder")
  | structOfSlice (stem : String) : Stemmed .structOfSlice stem (stem ++ "_from_slice")

theorem Stemmed.unique {k k' : FragmentKind} {stem stem' name name' : String} (one : Stemmed k stem name)
    (other : Stemmed k' stem' name') (same : name = name') : k = k' ∧ stem = stem' := by
  have ends := congrArg (fun n => n.toList.reverse) same
  cases one <;> cases other <;> simp [String.toList_append] at ends ⊢
  all_goals exact String.toList_inj.1 ends

def Fragment.Named (kinds : List FragmentKind) (frag : Fragment) : Prop :=
  frag.kind ∈ kinds ∧ ∃ stem, Stemmed frag.kind stem frag.name

theorem Fragment.Named.apart {kinds kinds' : List FragmentKind} {a b : Fragment} (one : a.Named kinds)
    (other : b.Named kinds') (disjoint : ∀ kind ∈ kinds, kind ∉ kinds') : a.name ≠ b.name := by
  intro same
  obtain ⟨known, stem, stemmed⟩ := one
  obtain ⟨known', stem', stemmed'⟩ := other
  exact disjoint _ known ((stemmed.unique stemmed' same).1 ▸ known')

namespace Lower

variable {target : Target}

def Serves (target : Target) (f : Function) (frag : Fragment) : Prop :=
  decode target f = .ok frag ∨ f.kind = .function ∧ encode target f = .ok frag

def Clash (target : Target) (fs : List Function) (a b : Fragment) : Prop :=
  ∃ (i j : Nat) (f g : Function), i < j ∧ fs[i]? = some f ∧ fs[j]? = some g ∧ f.isPublic = true ∧ g.isPublic = true ∧
    fragmentName f = fragmentName g ∧ Serves target f a ∧ Serves target g b

theorem Clash.cons {f : Function} {fs : List Function} {a b : Fragment} (clash : Clash target fs a b) :
    Clash target (f :: fs) a b := by
  obtain ⟨i, j, g, h, order, one, other, rest⟩ := clash
  exact ⟨i + 1, j + 1, g, h, by omega, one, other, rest⟩

theorem decodeShape {f : Function} {frag : Fragment} (ok : decode target f = .ok frag) :
    frag.kind = .decode ∧ frag.name = fragmentName f ++ "_decode" := by
  obtain ⟨code, -, made⟩ := okOfBind ok
  cases made
  exact ⟨rfl, rfl⟩

theorem encodeShape {f : Function} {frag : Fragment} (ok : encode target f = .ok frag) :
    frag.kind = .encode ∧ frag.name = fragmentName f ++ "_encode" := by
  obtain ⟨code, -, made⟩ := okOfBind ok
  cases made
  exact ⟨rfl, rfl⟩

theorem Serves.stemmed {f : Function} {frag : Fragment} (serves : Serves target f frag) :
    frag.kind ∈ [.decode, .encode] ∧ Stemmed frag.kind (fragmentName f) frag.name := by
  rcases serves with ok | ⟨-, ok⟩
  · obtain ⟨kind, name⟩ := decodeShape ok
    rw [kind, name]
    exact ⟨by simp, .decode _⟩
  · obtain ⟨kind, name⟩ := encodeShape ok
    rw [kind, name]
    exact ⟨by simp, .encode _⟩

theorem functionsServe {fs : List Function} {fragments : List Fragment} (ok : functions target fs = .ok fragments)
    {frag : Fragment} (mem : frag ∈ fragments) :
    ∃ (i : Nat) (f : Function), fs[i]? = some f ∧ f.isPublic = true ∧ Serves target f frag := by
  obtain ⟨f, inside, pub, serves⟩ := functionsOnly ok mem
  obtain ⟨i, found⟩ := List.mem_iff_getElem?.1 inside
  exact ⟨i, f, found, pub, serves⟩

theorem functionsClash {fs : List Function} {fragments : List Fragment} (ok : functions target fs = .ok fragments) :
    fragments.Pairwise fun a b => a.name = b.name → Clash target fs a b := by
  induction fs generalizing fragments with
  | nil =>
    cases ok
    exact .nil
  | cons f rest ih =>
    cases shown : f.isPublic with
    | false =>
      rw [functions, shown] at ok
      exact (ih ok).imp fun clash same => (clash same).cons
    | true =>
      obtain ⟨d, answer, others, decoded, answered, following, rfl⟩ := functionsCons ok shown
      have own : ∀ a ∈ d :: answer, Serves target f a := by
        intro a inside
        rcases List.mem_cons.1 inside with rfl | inside
        · exact .inl decoded
        · rcases answersOk answered with ⟨ordinary, e, encoded, rfl⟩ | ⟨-, rfl⟩
          · cases List.mem_singleton.1 inside
            exact .inr ⟨ordinary, encoded⟩
          · cases inside
      -- Within one function the kinds differ; between functions one name means one stem.
      refine List.pairwise_append.2 ⟨?_, (ih following).imp fun clash same => (clash same).cons, ?_⟩
      · rcases answersOk answered with ⟨-, e, encoded, rfl⟩ | ⟨-, rfl⟩
        · refine List.pairwise_pair.2 fun same => ?_
          have kinds := ((Serves.stemmed (.inl decoded)).2.unique (own e (by simp)).stemmed.2 same).1
          rw [(decodeShape decoded).1, (encodeShape encoded).1] at kinds
          cases kinds
        · exact List.pairwise_singleton _ _
      · intro a first b second same
        obtain ⟨j, g, found, pub, serves⟩ := functionsServe following second
        have stems := ((own a first).stemmed.2.unique serves.stemmed.2 same).2
        exact ⟨0, j + 1, f, g, by omega, rfl, found, shown, pub, stems, own a first, serves⟩

theorem functionsDecode {fs : List Function} {fragments : List Fragment} (ok : functions target fs = .ok fragments) :
    ((fs.filter Function.isPublic).map fun f => fragmentName f ++ "_decode").Sublist (fragments.map Fragment.name) := by
  induction fs generalizing fragments with
  | nil => exact List.nil_sublist _
  | cons f rest ih =>
    cases shown : f.isPublic with
    | false =>
      rw [functions, shown] at ok
      rw [List.filter_cons_of_neg (by simp [shown])]
      exact ih ok
    | true =>
      obtain ⟨d, answer, others, decoded, -, following, rfl⟩ := functionsCons ok shown
      rw [List.filter_cons_of_pos shown, List.map_cons, List.cons_append, List.map_cons, (decodeShape decoded).2]
      refine List.Sublist.cons_cons _ ?_
      rw [List.map_append]
      exact (ih following).trans (List.sublist_append_right _ _)

theorem clashesOf {fs : List Function} (distinct : ((fs.filter Function.isPublic).map fragmentName).Nodup)
    (a b : Fragment) : ¬Clash target fs a b := by
  rintro ⟨i, j, f, g, order, one, other, pub, pub', same, -⟩
  rw [List.Nodup, List.pairwise_map, List.pairwise_filter, List.pairwise_iff_getElem] at distinct
  obtain ⟨first, rfl⟩ := List.getElem?_eq_some_iff.1 one
  obtain ⟨second, rfl⟩ := List.getElem?_eq_some_iff.1 other
  exact distinct i j first second order pub pub' same

structure Collects (before after : List String × List Ty) : Prop where
  seen : before.1 ⊆ after.1
  found : ∃ new, after.2 = before.2 ++ new ∧ (new.filterMap Ty.structName?).Nodup ∧
    ∀ n ∈ new.filterMap Ty.structName?, n ∉ before.1 ∧ n ∈ after.1

namespace Collects

theorem refl (acc : List String × List Ty) : Collects acc acc :=
  ⟨List.Subset.refl _, [], (List.append_nil _).symm, List.nodup_nil, List.forall_mem_nil _⟩

theorem trans {a b c : List String × List Ty} (one : Collects a b) (two : Collects b c) : Collects a c := by
  obtain ⟨first, same, once, fresh⟩ := one.found
  obtain ⟨second, same', once', fresh'⟩ := two.found
  refine ⟨List.Subset.trans one.seen two.seen, first ++ second, by rw [same', same, List.append_assoc], ?_, ?_⟩
  · rw [List.filterMap_append, List.nodup_append']
    refine ⟨once, once', fun n here there => ?_⟩
    exact (fresh' n there).1 (fresh n here).2
  · rw [List.filterMap_append]
    intro n inside
    rcases List.mem_append.1 inside with here | there
    · exact ⟨(fresh n here).1, two.seen (fresh n here).2⟩
    · exact ⟨fun old => (fresh' n there).1 (one.seen old), (fresh' n there).2⟩

/- A struct is marked as seen before its members are visited and added after them. -/
theorem struct {name : String} {names : List String} {types : List Ty} {seen : List String} {found : List Ty}
    {after : List String × List Ty} (new : name ∉ seen) (members : Collects (name :: seen, found) after) :
    Collects (seen, found) (after.1, after.2 ++ [.struct name names types]) := by
  obtain ⟨inner, same, once, fresh⟩ := members.found
  refine ⟨fun n old => members.seen (List.mem_cons_of_mem _ old), inner ++ [.struct name names types],
    by simp only [same, List.append_assoc], ?_, ?_⟩
  · rw [List.filterMap_append, List.nodup_append']
    refine ⟨once, by simp [Ty.structName?], fun n here there => ?_⟩
    cases List.mem_singleton.1 there
    exact (fresh _ here).1 List.mem_cons_self
  · rw [List.filterMap_append]
    intro n inside
    rcases List.mem_append.1 inside with here | there
    · exact ⟨fun old => (fresh n here).1 (List.mem_cons_of_mem _ old), (fresh n here).2⟩
    · cases List.mem_singleton.1 there
      exact ⟨new, members.seen List.mem_cons_self⟩

end Collects

mutual
theorem collectCollects (around : List (String × Ty)) :
    (t : Ty) → ∀ acc : List String × List Ty, Collects acc (collect around t acc)
  | .struct name names types, (seen, found) => by
    unfold collect
    split
    · exact .refl _
    · rename_i new
      simp only [complete]
      exact .struct (by simpa using new) (collectAllCollects _ types _)
  | .tuple types, acc => by
    simp only [collect]
    exact collectAllCollects around types acc
  | .mapping _ value, acc => by
    simp only [collect]
    exact collectCollects around value acc
  | .array element, acc => by
    simp only [collect]
    exact collectCollects around element acc
  | .integer .., acc | .bool, acc | .bytes _, acc | .named _, acc | .cell, acc | .address, acc | .other _, acc => by
    simpa only [collect] using .refl acc

theorem collectAllCollects (around : List (String × Ty)) :
    (types : List Ty) → ∀ acc : List String × List Ty, Collects acc (collectAll around types acc)
  | [], acc => .refl acc
  | t :: rest, acc => (collectCollects around t acc).trans (collectAllCollects around rest (collect around t acc))
end

theorem usedStructsDistinct (u : SourceUnit) (c : Contract) :
    ((usedStructs u c).filterMap Ty.structName?).Nodup := by
  obtain ⟨new, same, once, -⟩ := (collectAllCollects [] (c.structs ++
    ((c.functions.filter Function.isPublic).flatMap fun f => types f.params ++ types f.returns) ++
      (u.stateMembers c).map Prod.snd) ([], [])).found
  rw [usedStructs, same, List.nil_append]
  exact once

theorem helpersStemmed {name : String} {names : List String} {types : List Ty} {own : List Fragment}
    (ok : helpers target name names types = .ok own) :
    (∀ frag ∈ own, Stemmed frag.kind name frag.name) ∧
      own.map Fragment.kind = [.structDefault, .structToBuilder, .structOfSlice] := by
  obtain ⟨default, toBuilder, ofSlice, -, -, -, rfl⟩ := helpersOk ok
  refine ⟨?_, rfl⟩
  simp only [List.forall_mem_cons]
  exact ⟨.structDefault name, .structToBuilder name, .structOfSlice name, List.forall_mem_nil _⟩

theorem structsStemmed {list : List Ty} {fragments : List Fragment} (ok : structs target list = .ok fragments)
    {frag : Fragment} (mem : frag ∈ fragments) :
    frag.kind ∈ [.structDefault, .structToBuilder, .structOfSlice] ∧
      ∃ stem ∈ list.filterMap Ty.structName?, Stemmed frag.kind stem frag.name := by
  obtain ⟨name, names, types, own, inside, -, made, mine⟩ := structsOnly ok mem
  obtain ⟨stemmed, kinds⟩ := helpersStemmed made
  refine ⟨kinds ▸ List.mem_map_of_mem mine, name, ?_, stemmed frag mine⟩
  exact List.mem_filterMap.2 ⟨_, inside, rfl⟩

theorem structsDistinct {list : List Ty} {fragments : List Fragment} (ok : structs target list = .ok fragments)
    (distinct : (list.filterMap Ty.structName?).Nodup) : (fragments.map Fragment.name).Nodup := by
  induction list generalizing fragments with
  | nil =>
    cases ok
    exact List.nodup_nil
  | cons t rest ih =>
    rcases structsCons target t rest with ⟨name, names, types, rfl, -, opened⟩ | ⟨-, opened⟩
    · rw [opened] at ok
      obtain ⟨own, made, ok⟩ := okOfBind ok
      obtain ⟨others, following, ok⟩ := okOfBind ok
      cases ok
      obtain ⟨stemmed, kinds⟩ := helpersStemmed made
      obtain ⟨new, later⟩ := List.nodup_cons.1 distinct
      rw [List.map_append, List.nodup_append']
      refine ⟨?_, ih following later, ?_⟩
      · have apart : (own.map Fragment.kind).Nodup := by
          rw [kinds]
          decide
        refine List.Nodup.map_on (fun a first b second same => ?_) apart.of_map
        exact List.inj_on_of_nodup_map apart first second ((stemmed a first).unique (stemmed b second) same).1
      · intro n here there
        obtain ⟨a, first, rfl⟩ := List.mem_map.1 here
        obtain ⟨b, second, same⟩ := List.mem_map.1 there
        obtain ⟨-, stem, known, other⟩ := structsStemmed following second
        rw [(other.unique (stemmed a first) same).2] at known
        exact new known
    · rw [opened] at ok
      refine ih ok ?_
      rw [List.filterMap_cons] at distinct
      split at distinct
      · exact distinct
      · exact (List.nodup_cons.1 distinct).2

theorem stateNamed {members : List (String × Ty)} {load store : Fragment} (loads : loadState target members = .ok load)
    (stores : storeState target members = .ok store) : load.Named [.loadState] ∧ store.Named [.storeState] := by
  obtain ⟨_, -, made⟩ := okOfBind loads
  obtain ⟨_, -, made'⟩ := okOfBind stores
  cases made
  cases made'
  exact ⟨⟨List.mem_singleton_self _, "", .loadState⟩, ⟨List.mem_singleton_self _, "", .storeState⟩⟩

theorem programClash {u : SourceUnit} {c : Contract} {program : Program} (ok : lower target u c = .ok program) :
    program.fragments.Pairwise fun a b => a.name = b.name → Clash target c.functions a b := by
  obtain ⟨functions, load, store, structs, made, loads, stores, helped, whole⟩ := lowerParts ok
  obtain ⟨loading, storing⟩ := stateNamed loads stores
  have served : ∀ a ∈ functions, a.Named [.decode, .encode] := by
    intro a inside
    obtain ⟨_, f, -, -, serves⟩ := functionsServe made inside
    exact ⟨serves.stemmed.1, _, serves.stemmed.2⟩
  have helping : ∀ b ∈ structs, b.Named [.structDefault, .structToBuilder, .structOfSlice] := by
    intro b inside
    obtain ⟨kind, stem, -, stemmed⟩ := structsStemmed helped inside
    exact ⟨kind, stem, stemmed⟩
  rw [whole]
  refine List.pairwise_append.2 ⟨List.pairwise_append.2 ⟨functionsClash made, ?_, ?_⟩, ?_, ?_⟩
  · exact List.pairwise_pair.2 fun same => absurd same (loading.apart storing (by decide))
  · intro a first
    simp only [List.forall_mem_cons]
    exact ⟨fun same => absurd same ((served a first).apart loading (by decide)),
      fun same => absurd same ((served a first).apart storing (by decide)), List.forall_mem_nil _⟩
  · have distinct := List.pairwise_map.1 (structsDistinct helped (usedStructsDistinct u c))
    exact distinct.imp fun differ same => absurd same differ
  · simp only [List.forall_mem_append, List.forall_mem_cons]
    refine ⟨fun a first b second same => ?_, fun b second same => ?_, fun b second same => ?_, List.forall_mem_nil _⟩
    · exact absurd same ((served a first).apart (helping b second) (by decide))
    · exact absurd same (loading.apart (helping b second) (by decide))
    · exact absurd same (storing.apart (helping b second) (by decide))

theorem namesDistinctIff {u : SourceUnit} {c : Contract} {program : Program} (ok : lower target u c = .ok program) :
    (program.fragments.map Fragment.name).Nodup ↔
      ((c.functions.filter Function.isPublic).map fragmentName).Nodup := by
  constructor
  · intro distinct
    obtain ⟨functions, load, store, structs, made, -, -, -, whole⟩ := lowerParts ok
    rw [whole, List.append_assoc, List.map_append] at distinct
    have decoders := (functionsDecode made).nodup (List.nodup_append'.1 distinct).1
    have stems : (c.functions.filter Function.isPublic).map (fun f => fragmentName f ++ "_decode") =
        ((c.functions.filter Function.isPublic).map fragmentName).map (· ++ "_decode") := by rw [List.map_map]; rfl
    exact (stems ▸ decoders).of_map
  · intro distinct
    rw [List.Nodup, List.pairwise_map]
    exact (programClash ok).imp fun {a b} clash (same : a.name = b.name) => clashesOf distinct a b (clash same)

theorem fragmentFound {program : Program} (distinct : (program.fragments.map Fragment.name).Nodup) {frag : Fragment}
    (mem : frag ∈ program.fragments) : program.fragment? frag.name = some frag := by
  cases found : program.fragment? frag.name with
  | none => exact absurd (beq_self_eq_true _) (List.find?_eq_none.1 found frag mem)
  | some other =>
    have same := List.find?_some found
    rw [beq_iff_eq] at same
    rw [List.inj_on_of_nodup_map distinct (List.mem_of_find?_eq_some found) mem same]

end Lower

namespace Check

variable {settings : Settings} {u : SourceUnit} {c : Contract}

theorem intrinsicsReport {contract : String} {fs : List Function}
    (ended : (intrinsics settings contract fs).abort = none)
    {f : Function} (mem : f ∈ fs) (own : settings.isIntrinsic f.name = true) :
    ∀ d ∈ intrinsicRules settings contract f, d ∈ (intrinsics settings contract fs).diagnostics := by
  intro d inside
  fun_induction intrinsics settings contract fs with
  | case1 => cases mem
  | case2 g rest _ rules fault refused => cases ended
  | case3 g rest _ rules more taken others ih =>
    rcases List.mem_cons.1 mem with rfl | later
    · exact List.mem_append_left _ (List.mem_append_left _ inside)
    · exact List.mem_append_right _ (ih ended later)
  | case4 g rest foreign ih =>
    rcases List.mem_cons.1 mem with rfl | later
    · exact absurd own foreign
    · exact ih ended later

theorem Passes.publicForeign (passes : Passes settings u c) {f : Function} (mem : f ∈ c.functions)
    (pub : f.isPublic = true) : settings.isIntrinsic f.name = false := by
  have ended : (intrinsics settings c.name c.functions).abort = none := by
    cases stopped : (intrinsics settings c.name c.functions).abort with
    | none => rfl
    | some fault =>
      have aborted := passes.ended
      simp [run, stopped] at aborted
  cases own : settings.isIntrinsic f.name with
  | false => rfl
  | true =>
    have visible : f.visibility ≠ .priv := by
      intro hidden
      simp [Function.isPublic, hidden] at pub
    have reported : ⟨f.place, .intrinsicVisible⟩ ∈ (run settings u c).diagnostics := by
      rw [runDiagnostics]
      refine List.mem_append_right _ (List.mem_append_left _ (intrinsicsReport ended mem own _ ?_))
      simp [intrinsicRules, when, visible]
    exact absurd rfl (errorsOfReport passes.clean reported)

def Exempt (settings : Settings) (u : SourceUnit) (c : Contract) (p : FunctionRef × Function) : Prop :=
  p.2.kind ≠ .function ∨ TakesPart (ordinary settings (u.baseFirst c)) p

theorem Passes.oneExempt (passes : Passes settings u c) (linked : u.Linked) (mem : c ∈ u.contracts)
    {p q : FunctionRef × Function} (one : p ∈ refs c) (other : q ∈ refs c) (differ : p.1 ≠ q.1)
    (pub : p.2.isPublic = true) (pub' : q.2.isPublic = true)
    (same : Lower.fragmentName p.2 = Lower.fragmentName q.2) :
    Exempt settings u c p ∨ Exempt settings u c q := by
  by_cases first : p.2.kind = .function
  · by_cases second : q.2.kind = .function
    · have chained : c ∈ u.baseFirst c := by
        refine (linked.chain mem).2 ⟨mem, ?_⟩
        rw [(linked.order c mem).1]
        exact List.mem_cons_self
      have ordinaryOf {r : FunctionRef × Function} (own : r ∈ refs c) (shown : r.2.isPublic = true)
          (kind : r.2.kind = .function) : r ∈ ordinary settings (u.baseFirst c) := by
        have declared := List.mem_of_getElem? (refsMem.1 own).2
        exact ordinaryMem.2 ⟨⟨c, chained, own⟩, kind, passes.publicForeign declared shown⟩
      rw [Lower.fragmentName, if_pos first, Lower.fragmentName, if_pos second] at same
      exact (passes.oneTakesPart linked mem (ordinaryOf one pub first) (ordinaryOf other pub' second) differ same).imp
        .inr .inr
    · exact .inr (.inl second)
  · exact .inl (.inl first)

end Check

/- Fragments of one name are made for two public functions with one stem, of which one at least is exempt. So the names
differ exactly when those stems do, and then each fragment is found by its name. -/
theorem namesTellFragments {decoder : Description.Decoder} {w : Workspace} {path : String} {u : SourceUnit}
    (loaded : Description.load decoder w path = .ok u)
    {c : Contract} (mem : c ∈ u.contracts) {settings : Settings} (passes : Check.Passes settings u c) {target : Target}
    {program : Program} (lowered : lower target u c = .ok program) :
    (program.fragments.Pairwise fun a b => a.name = b.name → ∃ p ∈ Check.refs c, ∃ q ∈ Check.refs c, p.1 ≠ q.1 ∧
      p.2.isPublic = true ∧ q.2.isPublic = true ∧ Lower.fragmentName p.2 = Lower.fragmentName q.2 ∧
      Lower.Serves target p.2 a ∧ Lower.Serves target q.2 b ∧
      (Check.Exempt settings u c p ∨ Check.Exempt settings u c q)) ∧
    ((program.fragments.map Fragment.name).Nodup ↔
      ((c.functions.filter Function.isPublic).map Lower.fragmentName).Nodup) ∧
    ((program.fragments.map Fragment.name).Nodup →
      ∀ frag ∈ program.fragments, program.fragment? frag.name = some frag) := by
  have linked := Description.loadLinked loaded
  refine ⟨(Lower.programClash lowered).imp fun clash same => ?_, Lower.namesDistinctIff lowered,
    fun distinct frag inside => Lower.fragmentFound distinct inside⟩
  obtain ⟨i, j, f, g, order, one, other, pub, pub', stems, serves, serves'⟩ := clash same
  have first : (⟨⟨c.name, i⟩, f⟩ : FunctionRef × Function) ∈ Check.refs c := Check.refsMem.2 ⟨rfl, one⟩
  have second : (⟨⟨c.name, j⟩, g⟩ : FunctionRef × Function) ∈ Check.refs c := Check.refsMem.2 ⟨rfl, other⟩
  have differ : (⟨c.name, i⟩ : FunctionRef) ≠ ⟨c.name, j⟩ := by
    intro equal
    cases equal
    omega
  exact ⟨_, first, _, second, differ, pub, pub', stems, serves, serves',
    passes.oneExempt linked mem first second differ pub pub' stems⟩

def tallySources : Workspace :=
  ⟨"/tally", [("main", "contracts:
- name: Tally
  structs: [\x7bname: Vote, members: [\x7bname: weight, type: uint8\x7d]\x7d]
  functions:
  - \x7bname: constructor, id: 1\x7d
  - \x7bname: cast, id: 2, params: [\x7bname: vote, type: Vote\x7d]\x7d
")]⟩

theorem tallyLowers :
    ∃ u, Description.load Description.decode tallySources "main" = .ok u ∧ ∃ c ∈ u.contracts, Check.Passes {} u c ∧
    ((c.functions.filter Function.isPublic).map Lower.fragmentName).Nodup ∧
      ∃ program, lower {} u c = .ok program ∧ program.fragments.length = 8 := by decide +kernel

theorem tallyNamesTell :
    ∃ u, Description.load Description.decode tallySources "main" = .ok u ∧ ∃ c ∈ u.contracts, Check.Passes {} u c ∧
    ∃ program, lower {} u c = .ok program ∧ program.fragments.length = 8 ∧
      (program.fragments.map Fragment.name).Nodup ∧
        ∀ frag ∈ program.fragments, program.fragment? frag.name = some frag := by
  obtain ⟨u, loaded, c, mem, passes, stems, program, lowered, count⟩ := tallyLowers
  obtain ⟨-, distinct, found⟩ := namesTellFragments loaded mem passes lowered
  exact ⟨u, loaded, c, mem, passes, program, lowered, count, distinct.2 stems, found (distinct.2 stems)⟩

def purseSources : Workspace :=
  ⟨"/purse", [("main", "contracts:
- name: Purse
  functions:
  - \x7bname: constructor, id: 1\x7d
  - \x7bname: constructor, id: 2, params: [\x7bname: a, type: uint8\x7d]\x7d
")]⟩

theorem purseNamesRepeat :
    ∃ u, Description.load Description.decode purseSources "main" = .ok u ∧ ∃ c ∈ u.contracts, Check.Passes {} u c ∧
    ∃ program, lower {} u c = .ok program ∧ ¬(program.fragments.map Fragment.name).Nodup := by decide +kernel

end CellChain
