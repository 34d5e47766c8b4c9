import Mathlib
import CellChain.Proofs.LoadedLinks
import CellChain.Proofs.SignatureChecks
/-! Overriding in validated contracts. A chain of contracts holds all that its functions override, and overriding
keeps the identifier wherever a chain was accepted; of the functions of one name in an accepted chain at most one
stands outside of overriding. -/
namespace CellChain

namespace Check

structure Passes (settings : Settings) (u : SourceUnit) (c : Contract) : Prop where
  ended : (run settings u c).abort = none
  clean : (run settings u c).hasErrors = false

instance {settings : Settings} {u : SourceUnit} {c : Contract} : Decidable (Passes settings u c) :=
  decidable_of_iff ((run settings u c).abort.isNone = true ∧ (run settings u c).hasErrors = false)
    ⟨fun ⟨ended, clean⟩ => ⟨Option.isNone_iff_eq_none.1 ended, clean⟩,
      fun passes => ⟨Option.isNone_iff_eq_none.2 passes.ended, passes.clean⟩⟩

/- Functions joined by override links, followed in either direction. The links that count are those that the
functions with `links` have. -/
inductive Joined (links : FunctionRef × Function → Prop) : FunctionRef → FunctionRef → Prop
  | self (r : FunctionRef) : Joined links r r
  | up {p : FunctionRef × Function} {s t : FunctionRef} (own : links p) (link : s ∈ p.2.overrides)
      (rest : Joined links s t) : Joined links p.1 t
  | down {p : FunctionRef × Function} {s t : FunctionRef} (own : links p) (link : s ∈ p.2.overrides)
      (rest : Joined links p.1 t) : Joined links s t

def TakesPart (functions : List (FunctionRef × Function)) (p : FunctionRef × Function) : Prop :=
  ∃ q ∈ functions, q.1 ≠ p.1 ∧ q.2.name = p.2.name ∧ (q.1 ∈ p.2.overrides ∨ p.1 ∈ q.2.overrides)

def Accepted (settings : Settings) (u : SourceUnit) (p : FunctionRef × Function) : Prop :=
  ∃ b ∈ u.contracts, Passes settings u b ∧ p ∈ ordinary settings (u.baseFirst b)

theorem ordinaryMem {settings : Settings} {chain : List Contract} {p : FunctionRef × Function} :
    p ∈ ordinary settings chain ↔
      (∃ b ∈ chain, p ∈ refs b) ∧ p.2.kind = .function ∧ settings.isIntrinsic p.2.name = false := by
  simp only [ordinary, List.mem_filter, List.mem_flatMap, Bool.and_eq_true, decide_eq_true_eq, Bool.not_eq_true']

theorem refsMem {c : Contract} {p : FunctionRef × Function} :
    p ∈ refs c ↔ p.1.contract = c.name ∧ c.functions[p.1.index]? = some p.2 := by
  obtain ⟨⟨contract, index⟩, f⟩ := p
  simp only [refs, List.mem_map, Prod.exists, List.mem_zipIdx_iff_getElem?, Prod.mk.injEq, FunctionRef.mk.injEq]
  constructor
  · rintro ⟨f, k, found, ⟨rfl, rfl⟩, rfl⟩
    exact ⟨rfl, found⟩
  · rintro ⟨rfl, found⟩
    exact ⟨f, index, found, ⟨rfl, rfl⟩, rfl⟩

end Check

namespace SourceUnit

variable {u : SourceUnit} {c : Contract}

theorem Linked.chain (linked : u.Linked) (mem : c ∈ u.contracts) {b : Contract} :
    b ∈ u.baseFirst c ↔ b ∈ u.contracts ∧ b.name ∈ c.linearized := by
  have filled : c.linearized.isEmpty = false := by
    rw [(linked.order c mem).1]
    rfl
  simp only [baseFirst, filled, Bool.false_eq_true, if_false, List.mem_reverse, List.mem_filterMap]
  constructor
  · rintro ⟨n, inside, found⟩
    obtain ⟨declared, name⟩ := Description.foundContract found
    exact ⟨declared, name ▸ inside⟩
  · rintro ⟨declared, inside⟩
    exact ⟨b.name, inside, Description.findContract linked.distinct declared⟩

theorem Linked.function (linked : u.Linked) {b : Contract} (mem : b ∈ u.contracts) {p : FunctionRef × Function}
    (inside : p ∈ Check.refs b) : u.function? p.1 = some p.2 := by
  obtain ⟨name, found⟩ := Check.refsMem.1 inside
  have declared : u.contract? p.1.contract = some b := name ▸ Description.findContract linked.distinct mem
  rw [function?, declared]
  exact found

end SourceUnit

namespace Check

variable {settings : Settings} {u : SourceUnit} {c : Contract}

theorem ordinaryFunction (linked : u.Linked) (mem : c ∈ u.contracts) {p : FunctionRef × Function}
    (inside : p ∈ ordinary settings (u.baseFirst c)) : u.function? p.1 = some p.2 := by
  obtain ⟨⟨b, chained, own⟩, -⟩ := ordinaryMem.1 inside
  exact linked.function ((linked.chain mem).1 chained).1 own

theorem ordinaryOnce (linked : u.Linked) (mem : c ∈ u.contracts) {p q : FunctionRef × Function}
    (one : p ∈ ordinary settings (u.baseFirst c)) (other : q ∈ ordinary settings (u.baseFirst c))
    (same : p.1 = q.1) : p.2 = q.2 := by
  have first := ordinaryFunction linked mem one
  rw [same, ordinaryFunction linked mem other] at first
  exact (Option.some.inj first).symm

theorem overridesInChain (linked : u.Linked) (mem : c ∈ u.contracts) {p : FunctionRef × Function}
    (inside : p ∈ ordinary settings (u.baseFirst c)) {s : FunctionRef} (link : s ∈ p.2.overrides) :
    s ≠ p.1 ∧ ∃ g, (s, g) ∈ ordinary settings (u.baseFirst c) ∧ g.name = p.2.name := by
  obtain ⟨⟨b, chained, own⟩, -, foreign⟩ := ordinaryMem.1 inside
  obtain ⟨declared, reached⟩ := (linked.chain mem).1 chained
  obtain ⟨owner, index⟩ := refsMem.1 own
  obtain ⟨behind, g, found, name, kind⟩ := linked.overrides b declared p.2 (List.mem_of_getElem? index) s link
  obtain ⟨first, once⟩ := linked.order b declared
  constructor
  · intro same
    rw [first] at once
    rw [same, owner] at behind
    exact (List.nodup_cons.1 once).1 behind
  · obtain ⟨b', same, within⟩ := linked.ancestors c mem b.name reached
    rw [SourceUnit.contract?, Description.findContract linked.distinct declared] at same
    cases same
    obtain ⟨base, known, here⟩ := Option.bind_eq_some_iff.1 found
    obtain ⟨among, named⟩ := Description.foundContract known
    have part : base ∈ u.baseFirst c :=
      (linked.chain mem).2 ⟨among, named ▸ within (List.mem_of_mem_tail behind)⟩
    exact ⟨g, ordinaryMem.2 ⟨⟨base, part, refsMem.2 ⟨named.symm, here⟩⟩, kind, name ▸ foreign⟩, name⟩

theorem Passes.overriding (passes : Passes settings u c) {d : Diagnostic}
    (inside : d ∈ Check.overriding settings u c) : d.finding.severity ≠ .error := by
  apply errorsOfReport passes.clean
  rw [runDiagnostics, passes.ended]
  simp [afterIntrinsics, inside]

theorem Passes.overrideId (passes : Passes settings u c) {p : FunctionRef × Function}
    (inside : p ∈ ordinary settings (u.baseFirst c)) {s : FunctionRef} (link : s ∈ p.2.overrides) {g : Function}
    (found : u.function? s = some g) : p.2.id = g.id := by
  by_contra differs
  have reported : ⟨p.2.place, .overrideId g.id⟩ ∈ Check.overriding settings u c := by
    refine List.mem_append_left _ (List.mem_flatMap.2 ⟨p, inside, List.mem_flatMap.2 ⟨s, link, ?_⟩⟩)
    rw [found]
    simp [when, differs]
  exact passes.overriding reported rfl

theorem overloadsSilent {earlier functions : List Function} (none : overloads earlier functions = []) :
    (∀ f ∈ earlier, ∀ g ∈ functions, f.name ≠ g.name) ∧ (functions.map Function.name).Nodup := by
  induction functions generalizing earlier with
  | nil => exact ⟨fun _ _ => nofun, List.nodup_nil⟩
  | cons g rest ih =>
    obtain ⟨first, later⟩ := List.append_eq_nil_iff.1 none
    obtain ⟨apart, distinct⟩ := ih later
    constructor
    · intro f inside h member
      cases member with
      | head =>
        have new : ∀ f ∈ earlier, f.name ≠ g.name := by
          simpa [List.filter_eq_nil_iff] using first
        exact new f inside
      | tail _ behind => exact apart f (List.mem_append_left _ inside) h behind
    · refine List.nodup_cons.2 ⟨?_, distinct⟩
      intro again
      obtain ⟨h, behind, same⟩ := List.mem_map.1 again
      exact apart g (by simp) h behind same.symm

theorem overloadsError {earlier functions : List Function} {d : Diagnostic}
    (inside : d ∈ overloads earlier functions) : d.finding.severity = .error := by
  induction functions generalizing earlier with
  | nil => cases inside
  | cons f rest ih =>
    rcases List.mem_append.1 inside with own | later
    · obtain ⟨_, -, rfl⟩ := List.mem_map.1 own
      rfl
    · exact ih later

theorem Passes.overloadsNone (passes : Passes settings u c) :
    overloads [] (((ordinary settings (u.baseFirst c)).filter fun p =>
      !(overridden (ordinary settings (u.baseFirst c))).contains p.1).map Prod.snd) = [] := by
  rw [List.eq_nil_iff_forall_not_mem]
  intro d inside
  exact passes.overriding (List.mem_append_right _ inside) (overloadsError inside)

theorem Passes.outsideOnce (passes : Passes settings u c) {p q : FunctionRef × Function}
    (one : p ∈ ordinary settings (u.baseFirst c)) (other : q ∈ ordinary settings (u.baseFirst c))
    (outside : p.1 ∉ overridden (ordinary settings (u.baseFirst c)))
    (outside' : q.1 ∉ overridden (ordinary settings (u.baseFirst c))) (same : p.2.name = q.2.name) : p = q := by
  have distinct := (overloadsSilent passes.overloadsNone).2
  rw [List.map_map] at distinct
  refine List.inj_on_of_nodup_map distinct (List.mem_filter.2 ⟨one, ?_⟩) (List.mem_filter.2 ⟨other, ?_⟩) same
  · simpa using outside
  · simpa using outside'

theorem overriddenMem {functions : List (FunctionRef × Function)} {r : FunctionRef}
    (found : r ∈ overridden functions) :
    ∃ p ∈ functions, ∃ s ∈ p.2.overrides, r = p.1 ∨ r ∈ p.2.overrides := by
  obtain ⟨p, member, found⟩ := List.mem_flatMap.1 found
  simp only at found
  split at found
  · cases found
  · rename_i filled
    obtain ⟨s, link⟩ := List.exists_mem_of_ne_nil _ (mt List.isEmpty_iff.2 filled)
    exact ⟨p, member, s, link, List.mem_cons.1 found⟩

theorem takesPartOfOverridden (linked : u.Linked) (mem : c ∈ u.contracts) {p : FunctionRef × Function}
    (inside : p ∈ ordinary settings (u.baseFirst c))
    (found : p.1 ∈ overridden (ordinary settings (u.baseFirst c))) :
    TakesPart (ordinary settings (u.baseFirst c)) p := by
  obtain ⟨q, member, s, link, own | target⟩ := overriddenMem found
  · rw [← ordinaryOnce linked mem inside member own] at link
    obtain ⟨differ, g, chained, name⟩ := overridesInChain linked mem inside link
    exact ⟨(s, g), chained, differ, name, .inl link⟩
  · obtain ⟨differ, g, chained, name⟩ := overridesInChain linked mem member target
    have same : p.2 = g := ordinaryOnce linked mem inside chained rfl
    exact ⟨q, member, differ.symm, same ▸ name.symm, .inr target⟩

theorem Passes.oneTakesPart (passes : Passes settings u c) (linked : u.Linked) (mem : c ∈ u.contracts)
    {p q : FunctionRef × Function} (one : p ∈ ordinary settings (u.baseFirst c))
    (other : q ∈ ordinary settings (u.baseFirst c)) (differ : p.1 ≠ q.1) (same : p.2.name = q.2.name) :
    TakesPart (ordinary settings (u.baseFirst c)) p ∨ TakesPart (ordinary settings (u.baseFirst c)) q := by
  by_cases first : p.1 ∈ overridden (ordinary settings (u.baseFirst c))
  · exact .inl (takesPartOfOverridden linked mem one first)
  · by_cases second : q.1 ∈ overridden (ordinary settings (u.baseFirst c))
    · exact .inr (takesPartOfOverridden linked mem other second)
    · exact absurd (congrArg Prod.fst (passes.outsideOnce one other first second same)) differ

/- Of two functions of an accepted chain that have one name, at least one has an override link to another function
of that name in the chain: a function of a name that takes no part in overriding is the only one. -/
theorem redeclarationsTakePart {decoder : Description.Decoder} {w : Workspace} {path : String} {u : SourceUnit}
    (loaded : Description.load decoder w path = .ok u) {c : Contract} (mem : c ∈ u.contracts) {settings : Settings}
    (passes : Passes settings u c) :
    ∀ p ∈ ordinary settings (u.baseFirst c), ∀ q ∈ ordinary settings (u.baseFirst c),
      p.1 ≠ q.1 → p.2.name = q.2.name →
        TakesPart (ordinary settings (u.baseFirst c)) p ∨ TakesPart (ordinary settings (u.baseFirst c)) q := by
  have linked := Description.loadLinked loaded
  intro p one q other differ same
  exact passes.oneTakesPart linked mem one other differ same

def redeclaringSources : Workspace :=
  ⟨"/token", [("main", "contracts:
- name: Token
  functions: [\x7bname: send, id: 1\x7d]
- name: Bond
  is: [Token]
  functions:
  - \x7bname: send, id: 1, override: true\x7d
  - \x7bname: send, id: 2\x7d
")]⟩

theorem redeclaringLoads :
    ∃ u, Description.load Description.decode redeclaringSources "main" = .ok u ∧ ∃ c ∈ u.contracts,
    Passes {} u c ∧ ∃ p ∈ ordinary {} (u.baseFirst c), ∃ q ∈ ordinary {} (u.baseFirst c),
      p.1 = ⟨"Bond", 1⟩ ∧ q.1 = ⟨"Token", 0⟩ ∧ p.1 ≠ q.1 ∧ p.2.name = q.2.name ∧
        p.1 ∉ overridden (u.contracts.flatMap refs) := by decide +kernel

theorem redeclaredTakesPart :
    ∃ u, Description.load Description.decode redeclaringSources "main" = .ok u ∧ ∃ c ∈ u.contracts,
    ∃ p ∈ ordinary {} (u.baseFirst c), ∃ q ∈ ordinary {} (u.baseFirst c),
      p.1 = ⟨"Bond", 1⟩ ∧ q.1 = ⟨"Token", 0⟩ ∧
        (TakesPart (ordinary {} (u.baseFirst c)) p ∨ TakesPart (ordinary {} (u.baseFirst c)) q) := by
  obtain ⟨u, loaded, c, mem, passes, p, one, q, other, first, second, differ, same, -⟩ := redeclaringLoads
  exact ⟨u, loaded, c, mem, p, one, q, other, first, second,
    redeclarationsTakePart loaded mem passes p one q other differ same⟩

theorem joinedOutside {functions : List (FunctionRef × Function)} {r t : FunctionRef}
    (outside : r ∉ overridden functions) (joined : Joined (· ∈ functions) r t) : t = r := by
  have inside {p : FunctionRef × Function} {s : FunctionRef} (own : p ∈ functions) (link : s ∈ p.2.overrides) :
      p.1 ∈ overridden functions ∧ s ∈ overridden functions := by
    have filled : p.2.overrides.isEmpty = false := by
      rw [List.isEmpty_eq_false_iff]
      exact List.ne_nil_of_mem link
    constructor
    · exact List.mem_flatMap.2 ⟨p, own, by simp [filled]⟩
    · exact List.mem_flatMap.2 ⟨p, own, by simp [filled, link]⟩
  cases joined with
  | self => rfl
  | up own link => exact absurd (inside own link).1 outside
  | down own link => exact absurd (inside own link).2 outside

theorem redeclaredAlone :
    ∃ u, Description.load Description.decode redeclaringSources "main" = .ok u ∧ ∃ c ∈ u.contracts,
    Passes {} u c ∧ ∃ p ∈ ordinary {} (u.baseFirst c), ∃ q ∈ ordinary {} (u.baseFirst c),
      p.1 ≠ q.1 ∧ p.2.name = q.2.name ∧ ¬Joined (· ∈ u.contracts.flatMap refs) p.1 q.1 := by
  obtain ⟨u, loaded, c, mem, passes, p, one, q, other, -, -, differ, same, outside⟩ := redeclaringLoads
  exact ⟨u, loaded, c, mem, passes, p, one, q, other, differ, same,
    fun joined => differ (joinedOutside outside joined).symm⟩

theorem joinedIds (linked : u.Linked) {r t : FunctionRef} (joined : Joined (Accepted settings u) r t)
    {f g : Function} (first : u.function? r = some f) (last : u.function? t = some g) : f.id = g.id := by
  induction joined generalizing f with
  | self r =>
    rw [first] at last
    cases last
    rfl
  | up own link rest ih =>
    obtain ⟨b, mem, passes, inside⟩ := own
    obtain ⟨-, base, chained, -⟩ := overridesInChain linked mem inside link
    have found := ordinaryFunction linked mem chained
    rw [ordinaryFunction linked mem inside] at first
    cases first
    rw [passes.overrideId inside link found, ih found last]
  | down own link rest ih =>
    obtain ⟨b, mem, passes, inside⟩ := own
    rw [← passes.overrideId inside link first]
    exact ih (ordinaryFunction linked mem inside) last

theorem familiesShareIdentifier {decoder : Description.Decoder} {w : Workspace} {path : String} {u : SourceUnit}
    (loaded : Description.load decoder w path = .ok u) {c : Contract} (mem : c ∈ u.contracts) {settings : Settings}
    (passes : Passes settings u c) :
    (∀ p ∈ ordinary settings (u.baseFirst c), Accepted settings u p ∧ ∀ s ∈ p.2.overrides,
      ∃ g, (s, g) ∈ ordinary settings (u.baseFirst c) ∧ g.name = p.2.name) ∧
    ∀ p ∈ ordinary settings (u.baseFirst c), ∀ q ∈ ordinary settings (u.baseFirst c),
      Joined (Accepted settings u) p.1 q.1 → p.2.id = q.2.id := by
  have linked := Description.loadLinked loaded
  constructor
  · intro p inside
    refine ⟨⟨c, mem, passes, inside⟩, ?_⟩
    intro s link
    exact (overridesInChain linked mem inside link).2
  · intro p one q other joined
    exact joinedIds linked joined (ordinaryFunction linked mem one) (ordinaryFunction linked mem other)

def joiningSources : Workspace :=
  ⟨"/token", [("main", "contracts:
- name: Token
  functions: [\x7bname: send, id: 1\x7d]
- name: Bond
  is: [Token]
  functions:
  - \x7bname: send, id: 2\x7d
  - \x7bname: send, id: 1, override: true\x7d
- name: Mint
  is: [Token, Bond]
  functions: [\x7bname: send, id: 1, override: true\x7d]
")]⟩

theorem joiningLoads :
    ∃ u, Description.load Description.decode joiningSources "main" = .ok u ∧ ∃ c ∈ u.contracts, c.name = "Bond" ∧
    Passes {} u c ∧ ∃ p ∈ ordinary {} (u.baseFirst c), p.1 = ⟨"Token", 0⟩ ∧
      (∃ q ∈ ordinary {} (u.baseFirst c), q.1 = ⟨"Bond", 1⟩ ∧ p.1 ∈ q.2.overrides) ∧
      ∃ q ∈ ordinary {} (u.baseFirst c), p.2.id ≠ q.2.id ∧
        ∃ m ∈ u.contracts.flatMap refs, p.1 ∈ m.2.overrides ∧ q.1 ∈ m.2.overrides := by decide +kernel

theorem bondKeepsIdentifier :
    ∃ u, Description.load Description.decode joiningSources "main" = .ok u ∧ ∃ c ∈ u.contracts,
    c.name = "Bond" ∧ ∃ p ∈ ordinary {} (u.baseFirst c), ∃ q ∈ ordinary {} (u.baseFirst c),
      p.1 = ⟨"Token", 0⟩ ∧ q.1 = ⟨"Bond", 1⟩ ∧ Joined (Accepted {} u) p.1 q.1 ∧ p.2.id = q.2.id := by
  obtain ⟨u, loaded, c, mem, name, passes, p, one, first, ⟨q, other, second, link⟩, -⟩ := joiningLoads
  have joined : Joined (Accepted {} u) p.1 q.1 := .down ⟨c, mem, passes, other⟩ link (.self q.1)
  exact ⟨u, loaded, c, mem, name, p, one, q, other, first, second, joined,
    (familiesShareIdentifier loaded mem passes).2 p one q other joined⟩

theorem outsideLinkJoins : ∃ u, Description.load Description.decode joiningSources "main" = .ok u ∧ ∃ c ∈ u.contracts,
    Passes {} u c ∧ ∃ p ∈ ordinary {} (u.baseFirst c), ∃ q ∈ ordinary {} (u.baseFirst c),
      Joined (· ∈ u.contracts.flatMap refs) p.1 q.1 ∧ p.2.id ≠ q.2.id := by
  obtain ⟨u, loaded, c, mem, -, passes, p, one, -, -, q, other, differ, m, declared, left, right⟩ := joiningLoads
  exact ⟨u, loaded, c, mem, passes, p, one, q, other, .down declared left (.up declared right (.self q.1)), differ⟩

end Check

end CellChain
