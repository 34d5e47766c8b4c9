import Mathlib
import CellChain.Proofs.Descent
import CellChain.Proofs.Lineages
/-! The order of a contract and its ancestors. A merge gives an order exactly when there is one with every sequence
in it; a search gives the order that is merged from those of the bases, whatever was asked for before, and none
where a contract is missing or comes back to itself. Neither ever runs into its bound. -/
namespace CellChain.Lineage

theorem dropSublist (name : String) (s : List String) : (dropHead name s).Sublist s := by
  cases s with
  | nil => exact .slnil
  | cons x rest =>
    rw [dropHead]
    split
    · exact List.sublist_cons_self x rest
    · exact List.Sublist.refl _

/- An order that the sequences keep to: what comes first in it stands first in the sequences. -/
structure Kept (sequences : List (List String)) (order : List String) : Prop where
  once : order.Nodup
  within : ∀ s ∈ sequences, s.Sublist order

theorem Kept.free {sequences : List (List String)} {order : List String} (kept : Kept sequences order)
    (left : ∃ s ∈ sequences, s ≠ []) : ∃ s ∈ sequences, ∃ name, s.head? = some name ∧ !inTail name sequences := by
  induction order with
  | nil =>
    obtain ⟨s, inside, some⟩ := left
    exact absurd (List.sublist_nil.1 (kept.within s inside)) some
  | cons x rest ih =>
    obtain ⟨new, once⟩ := List.nodup_cons.1 kept.once
    by_cases first : ∃ s ∈ sequences, s.head? = some x
    · obtain ⟨s, inside, head⟩ := first
      refine ⟨s, inside, x, head, ?_⟩
      simp only [inTail, Bool.not_eq_true', List.any_eq_false, List.contains_iff_mem]
      intro t other behind
      exact new ((kept.within t other).tail.subset behind)
    · refine ih ⟨once, fun s inside => ?_⟩
      cases kept.within s inside with
      | cons _ later => exact later
      | cons_cons _ later => exact absurd ⟨_, inside, rfl⟩ first

/- A head that no tail holds is enough for one to be taken, though maybe another one. -/
theorem takesFree {sequences : List (List String)} (named : ∀ s ∈ sequences, "" ∉ s) {s : List String}
    (inside : s ∈ sequences) {name : String} (head : s.head? = some name) (free : !inTail name sequences) :
    ∃ head, nextHead? sequences = some head := by
  have some : (sequences.findSome? fun s => s.head?.filter fun name => !inTail name sequences).isSome := by
    rw [List.findSome?_isSome_iff]
    exact ⟨s, inside, by rw [head, Option.filter_some, if_pos free]; rfl⟩
  obtain ⟨first, found⟩ := Option.isSome_iff_exists.1 some
  obtain ⟨t, own, taken⟩ := List.exists_of_findSome?_eq_some found
  have member : first ∈ t := List.mem_of_mem_head? (Option.filter_eq_some_iff.1 taken).1
  refine ⟨first, ?_⟩
  rw [nextHead?, found, Option.filter_some, if_pos]
  exact decide_eq_true fun empty => named t own (empty ▸ member)

theorem Kept.takes {sequences : List (List String)} {order : List String} (kept : Kept sequences order)
    (named : ∀ s ∈ sequences, "" ∉ s) (left : ∃ s ∈ sequences, s ≠ []) : ∃ head, nextHead? sequences = some head := by
  obtain ⟨s, inside, name, head, free⟩ := kept.free left
  exact takesFree named inside head free

theorem namedDrop {sequences : List (List String)} (named : ∀ s ∈ sequences, "" ∉ s) (head : String) :
    ∀ s ∈ sequences.map (dropHead head), "" ∉ s := by
  intro t dropped empty
  obtain ⟨s, own, rfl⟩ := List.mem_map.1 dropped
  exact named s own (memOfDrop empty)

theorem Kept.drop {sequences : List (List String)} {order : List String} {head : String}
    (kept : Kept sequences order) (found : nextHead? sequences = some head) :
    Kept (sequences.map (dropHead head)) (order.erase head) := by
  refine ⟨kept.once.erase head, fun t dropped => ?_⟩
  obtain ⟨s, inside, rfl⟩ := List.mem_map.1 dropped
  have part := ((dropSublist head s).trans (kept.within s inside)).erase head
  rwa [List.erase_of_not_mem (headDropped found inside)] at part

theorem Kept.merges {sequences : List (List String)} {order : List String} (kept : Kept sequences order)
    (named : ∀ s ∈ sequences, "" ∉ s) : ∃ merged, Merges sequences merged := by
  induction size : order.length generalizing sequences order with
  | zero =>
    rw [List.length_eq_zero_iff] at size
    exact ⟨[], .done fun s inside => List.sublist_nil.1 (size ▸ kept.within s inside)⟩
  | succ n ih =>
    by_cases left : ∃ s ∈ sequences, s ≠ []
    · obtain ⟨head, found⟩ := kept.takes named left
      obtain ⟨s, inside, member⟩ := headInside found
      have listed : head ∈ order := (kept.within s inside).subset member
      have shorter : (order.erase head).length = n := by rw [List.length_erase_of_mem listed, size]; rfl
      obtain ⟨rest, merged⟩ := ih (kept.drop found) (namedDrop named head) shorter
      exact ⟨head :: rest, .take found merged⟩
    · exact ⟨[], .done fun s inside => by_contra fun some => left ⟨s, inside, some⟩⟩

theorem Merges.named {sequences : List (List String)} {order : List String} (h : Merges sequences order) :
    "" ∉ order := by
  induction h with
  | done empty => exact List.not_mem_nil
  | take found others ih => exact List.not_mem_cons_of_ne_of_not_mem (headTaken found).1.symm ih

theorem Merges.length {sequences : List (List String)} {order : List String} (h : Merges sequences order) :
    order.length ≤ sequences.flatten.length :=
  (List.subperm_of_subset h.nodup fun x inside => List.mem_flatten.2 (h.only x inside)).length_le

theorem Merges.steps {sequences : List (List String)} {order : List String} (h : Merges sequences order) {n : Nat}
    (enough : order.length ≤ n) : mergeSteps n sequences = some order := by
  induction h generalizing n with
  | done empty =>
    have all : (List.all _ List.isEmpty) = true := List.all_eq_true.2 fun s inside =>
      List.isEmpty_iff.2 (empty s inside)
    cases n <;> rw [mergeSteps, if_pos all]
  | @take sequences head rest found others ih =>
    obtain ⟨s, inside, member⟩ := headInside found
    have some : ¬ sequences.all List.isEmpty = true := by
      intro all
      rw [List.isEmpty_iff.1 (List.all_eq_true.1 all s inside)] at member
      cases member
    cases n with
    | zero => cases enough
    | succ n =>
      rw [mergeSteps, if_neg some, found]
      simp only [Option.bind_eq_bind, Option.bind_some, ih (Nat.le_of_succ_le_succ enough)]

theorem stepsIff {sequences : List (List String)} {n : Nat} (enough : sequences.flatten.length ≤ n)
    {order : List String} : mergeSteps n sequences = some order ↔ Merges sequences order :=
  ⟨mergesOfSteps, fun h => h.steps (h.length.trans enough)⟩

theorem mergeIff {sequences : List (List String)} {order : List String} :
    merge sequences = some order ↔ Merges sequences order := stepsIff le_rfl

theorem mergeSettled (sequences : List (List String)) (more : Nat) :
    mergeSteps (sequences.flatten.length + more) sequences = merge sequences := by
  ext order
  rw [mergeIff, stepsIff (Nat.le_add_right _ more)]

theorem mergeExists (sequences : List (List String)) :
    (∃ order, merge sequences = some order) ↔ (∀ s ∈ sequences, "" ∉ s) ∧ ∃ order, Kept sequences order := by
  simp only [mergeIff]
  constructor
  · rintro ⟨order, h⟩
    exact ⟨fun s inside empty => h.named ((h.keeps s inside).subset empty), order, h.nodup, h.keeps⟩
  · rintro ⟨named, order, kept⟩
    exact kept.merges named

def Base (graph : Graph) (name base : String) : Prop := ∃ direct, graph.lookup name = some direct ∧ base ∈ direct

/- The order of a declared contract is itself and the merge of the orders of its bases, the last one first, and of
their list. -/
inductive Ordered (graph : Graph) : String → List String → Prop
  | merged {name : String} {direct ancestors : List String} (declared : graph.lookup name = some direct)
      (line : String → List String) (bases : ∀ b ∈ direct, Ordered graph b (line b))
      (one : Merges (direct.reverse.map line ++ [direct.reverse]) ancestors) : Ordered graph name (name :: ancestors)

namespace Ordered

variable {graph : Graph} {name : String} {line : List String}

theorem unique (h : Ordered graph name line) {other : List String} (again : Ordered graph name other) :
    line = other := by
  induction h generalizing other with
  | @merged name direct ancestors declared line bases one ih =>
    cases again with
    | @merged _ listed others found second own two =>
      rw [declared] at found
      cases found
      have same : direct.reverse.map line = direct.reverse.map second :=
        List.map_congr_left fun b inside =>
          ih b (List.mem_reverse.1 inside) (own b (List.mem_reverse.1 inside))
      rw [same] at one
      exact congrArg (name :: ·) (Option.some.inj ((mergeIff.2 one).symm.trans (mergeIff.2 two)))

theorem founded (h : Ordered graph name line) : Descent.Founded (Base graph) name := by
  induction h with
  | merged declared line bases one ih =>
    refine ⟨_, fun b above => ?_⟩
    obtain ⟨direct, found, inside⟩ := above
    rw [declared] at found
    cases found
    exact ih b inside

theorem base (h : Ordered graph name line) {b : String} (above : Base graph name b) :
    ∃ own, Ordered graph b own ∧ own.Sublist line.tail := by
  cases h with
  | merged declared line bases one =>
    obtain ⟨direct, found, inside⟩ := above
    rw [declared] at found
    cases found
    exact ⟨line b, bases b inside,
      one.keeps _ (List.mem_append_left _ (List.mem_map_of_mem (List.mem_reverse.2 inside)))⟩

theorem ancestor (h : Ordered graph name line) {m : String} (above : Relation.ReflTransGen (Base graph) name m) :
    ∃ own, Ordered graph m own ∧ own.Sublist line := by
  induction above with
  | refl => exact ⟨line, h, List.Sublist.refl _⟩
  | tail _ last ih =>
    obtain ⟨own, ordered, within⟩ := ih
    obtain ⟨next, known, part⟩ := ordered.base last
    exact ⟨next, known, (part.trans (List.tail_sublist own)).trans within⟩

theorem starts (h : Ordered graph name line) : line = name :: line.tail := by
  cases h
  rfl

theorem declared (h : Ordered graph name line) : ∃ direct, graph.lookup name = some direct ∧
    direct.reverse.Sublist line.tail := by
  cases h with
  | merged declared line bases one => exact ⟨_, declared, one.keeps _ (by simp)⟩

theorem behind (h : Ordered graph name line) {m : String} (inside : m ∈ line.tail) :
    Relation.TransGen (Base graph) name m := by
  induction h with
  | @merged name direct ancestors declared line bases one ih =>
    obtain ⟨s, among, member⟩ := one.only m inside
    rcases List.mem_append.1 among with above | listed
    · obtain ⟨b, own, rfl⟩ := List.mem_map.1 above
      rw [List.mem_reverse] at own
      rw [(bases b own).starts] at member
      cases member with
      | head => exact .single ⟨direct, declared, own⟩
      | tail _ later => exact .head ⟨direct, declared, own⟩ (ih b own later)
    · rw [List.mem_singleton.1 listed, List.mem_reverse] at member
      exact .single ⟨direct, declared, member⟩

theorem mem (h : Ordered graph name line) (m : String) :
    m ∈ line ↔ Relation.ReflTransGen (Base graph) name m := by
  constructor
  · intro inside
    rw [h.starts] at inside
    cases inside with
    | head => exact .refl
    | tail _ later => exact (h.behind later).to_reflTransGen
  · intro above
    obtain ⟨own, ordered, within⟩ := h.ancestor above
    rw [ordered.starts] at within
    exact within.subset List.mem_cons_self

theorem nodup (h : Ordered graph name line) : line.Nodup := by
  have new : name ∉ line.tail := fun again => h.founded.acyclic (h.behind again)
  cases h with
  | merged declared line bases one => exact List.nodup_cons.2 ⟨new, one.nodup⟩

end Ordered

theorem Known.Sound.ordered {graph : Graph} {k : Known} (sound : Known.Sound graph k) {name : String}
    {line : List String} (found : k.lookup name = some line) : Ordered graph name line := by
  -- The orders of the bases stand in that of the contract, so they are shorter.
  induction size : line.length using Nat.strong_induction_on generalizing name line with
  | h long ih =>
    obtain ⟨direct, lines, ancestors, declared, bases, merged, rfl⟩ := (sound name line found).merged
    have order := mergeIff.1 merged
    have same : lines = direct.reverse.map fun b => (k.lookup b).getD [] := by
      have either := congrArg (List.map fun l : Option (List String) => l.getD []) bases
      simpa [Function.comp_def] using either.symm
    refine .merged declared (fun b => (k.lookup b).getD []) (fun b inside => ?_) (same ▸ order)
    obtain ⟨own, member, known⟩ := Known.lookupOfMap bases (List.mem_reverse.2 inside)
    have part := order.keeps own (List.mem_append_left _ member)
    simp only [known, Option.getD_some]
    exact ih own.length (size ▸ Nat.lt_succ_of_le part.length_le) known rfl

theorem eachOrdered {graph : Graph} {find : String → Finding (List String)} {line : String → List String}
    {names : List String}
    (h : ∀ b ∈ names, ∀ k, Known.Sound graph k → ∃ after, find b k = .ok (line b) after ∧ Known.Sound graph after)
    {k : Known} (sound : Known.Sound graph k) : ∃ after, each find names k = .ok (names.map line) after := by
  induction names generalizing k with
  | nil => exact ⟨k, rfl⟩
  | cons name rest ih =>
    obtain ⟨middle, one, keeps⟩ := h name List.mem_cons_self k sound
    obtain ⟨after, two⟩ := ih (fun b inside => h b (List.mem_cons_of_mem _ inside)) keeps
    refine ⟨after, ?_⟩
    simp only [each, bind, EStateM.bind, one, two]
    rfl

theorem followKnown {graph : Graph} {n : Nat} {path : List String} {name : String} {k : Known} {line : List String}
    (known : k.lookup name = some line) : follow graph (n + 1) path name k = .ok line k := by
  simp only [follow, known]

theorem followMerged {graph : Graph} {n : Nat} {path : List String} {name : String} {k middle : Known}
    {direct ancestors : List String} {lines : List (List String)} (new : k.lookup name = none) (off : name ∉ path)
    (declared : graph.lookup name = some direct)
    (bases : each (follow graph n (path ++ [name])) direct.reverse k = .ok lines middle)
    (merged : merge (lines ++ [direct.reverse]) = some ancestors) :
    follow graph (n + 1) path name k = .ok (name :: ancestors) ((name, name :: ancestors) :: middle) := by
  simp only [follow, new, off, if_false, declared, bind, EStateM.bind, bases, conclude, merged]

theorem Ordered.found {graph : Graph} {name : String} {line : List String} (h : Ordered graph name line) {n : Nat}
    (enough : line.length ≤ n) {path : List String} (apart : ∀ m ∈ line, m ∉ path) {k : Known}
    (sound : Known.Sound graph k) : ∃ after, follow graph n path name k = .ok line after := by
  induction h generalizing n path k with
  | @merged name direct ancestors declared line bases one ih =>
    cases n with
    | zero => cases enough
    | succ n =>
      cases known : k.lookup name with
      | some own =>
        have same := (sound.ordered known).unique (.merged declared line bases one)
        exact ⟨k, followKnown (same ▸ known)⟩
      | none =>
        have nodup := (Ordered.merged declared line bases one).nodup
        have lines : ∀ b ∈ direct.reverse, ∀ k, Known.Sound graph k →
            ∃ after, follow graph n (path ++ [name]) b k = .ok (line b) after ∧ Known.Sound graph after := by
          intro b inside k sound
          have part := one.keeps _ (List.mem_append_left _ (List.mem_map_of_mem inside))
          have short : (line b).length ≤ n := part.length_le.trans (Nat.le_of_succ_le_succ enough)
          have off : ∀ m ∈ line b, m ∉ path ++ [name] := by
            intro m member
            have behind := part.subset member
            have other : m ≠ name := fun same => (List.nodup_cons.1 nodup).1 (same ▸ behind)
            simp [other, apart m (List.mem_cons_of_mem _ behind)]
          obtain ⟨after, ok⟩ := ih b (List.mem_reverse.1 inside) short off sound
          exact ⟨after, ok, (followFinds sound ok).sound⟩
        obtain ⟨middle, ok⟩ := eachOrdered lines sound
        exact ⟨_, followMerged known (apart name List.mem_cons_self) declared ok (mergeIff.2 one)⟩

theorem lookupDeclared {graph : Graph} {name : String} {direct : List String}
    (declared : graph.lookup name = some direct) : name ∈ graph.map Prod.fst := by
  obtain ⟨l, r, same, -⟩ := List.lookup_eq_some_iff.1 declared
  rw [same]
  simp

theorem Ordered.listed {graph : Graph} {name : String} {line : List String} (h : Ordered graph name line) :
    ∀ m ∈ line, m ∈ graph.map Prod.fst := by
  intro m inside
  obtain ⟨own, ordered, -⟩ := h.ancestor ((h.mem m).1 inside)
  obtain ⟨direct, found, -⟩ := ordered.declared
  exact lookupDeclared found

theorem Ordered.short {graph : Graph} {name : String} {line : List String} (h : Ordered graph name line) :
    line.length ≤ graph.length := by
  have most := (List.subperm_of_subset h.nodup h.listed).length_le
  rwa [List.length_map] at most

theorem followSettled {graph : Graph} {n more : Nat} {path : List String} {name : String} {k : Known}
    (way : Descent.Way (graph.map Prod.fst) n path) :
    follow graph (n + more) path name k = follow graph n path name k := by
  -- The way down never repeats a contract, so the graph bounds it and the bound cannot come to zero.
  induction n generalizing path name k with
  | zero => exact way.full.elim
  | succ n ih =>
    rw [Nat.succ_add]
    cases known : k.lookup name with
    | some own => rw [followKnown known, followKnown known]
    | none =>
      by_cases off : name ∈ path
      · simp only [follow, known, off, if_true]
      · cases listed : graph.lookup name with
        | none => simp only [follow, known, listed]
        | some direct =>
          have same : follow graph (n + more) (path ++ [name]) = follow graph n (path ++ [name]) := by
            funext b k
            exact ih (way.push off (lookupDeclared listed))
          simp only [follow, known, listed, same]

def left {α σ : Type} : EStateM.Result Fault σ α → σ
  | .ok _ after => after
  | .error _ after => after

def asked (graph : Graph) : List String → Progress
  | [] => {}
  | name :: earlier => left (linearize graph name (asked graph earlier))

theorem followFails {graph : Graph} {n : Nat} {path : List String} {name : String} {k after : Known} {fault : Fault}
    (failed : follow graph (n + 1) path name k = .error fault after) :
    after = k ∨ ∃ direct : List String, after = left (each (follow graph n (path ++ [name])) direct.reverse k) := by
  cases known : k.lookup name with
  | some own =>
    rw [followKnown known] at failed
    cases failed
  | none =>
    simp only [follow, known] at failed
    split at failed
    · cases failed
      exact .inl rfl
    · cases declared : graph.lookup name with
      | none =>
        rw [declared] at failed
        cases failed
        exact .inl rfl
      | some direct =>
        simp only [declared, bind, EStateM.bind] at failed
        refine .inr ⟨direct, ?_⟩
        cases bases : each (follow graph n (path ++ [name])) direct.reverse k with
        | error e middle =>
          rw [bases] at failed
          cases failed
          rfl
        | ok lines middle =>
          simp only [bases, conclude] at failed
          cases merged : merge (lines ++ [direct.reverse]) with
          | none =>
            rw [merged] at failed
            cases failed
            rfl
          | some ancestors =>
            rw [merged] at failed
            cases failed

theorem eachLeaves {graph : Graph} {find : String → Finding (List String)}
    (h : ∀ {name k}, Known.Sound graph k → Known.Sound graph (left (find name k))) {names : List String} {k : Known}
    (sound : Known.Sound graph k) : Known.Sound graph (left (each find names k)) := by
  induction names generalizing k with
  | nil => exact sound
  | cons name rest ih =>
    have one : Known.Sound graph (left (find name k)) := h sound
    simp only [each, bind, EStateM.bind]
    cases first : find name k with
    | error e middle =>
      rw [first] at one
      exact one
    | ok line middle =>
      rw [first] at one
      have two := ih one
      simp only
      cases later : each find rest middle with
      | error e last =>
        rw [left, later] at two
        exact two
      | ok lines last =>
        rw [left, later] at two
        exact two

theorem followLeaves {graph : Graph} {n : Nat} {path : List String} {name : String} {k : Known}
    (sound : Known.Sound graph k) : Known.Sound graph (left (follow graph n path name k)) := by
  induction n generalizing path name k with
  | zero => exact sound
  | succ n ih =>
    cases result : follow graph (n + 1) path name k with
    | ok line after => exact (followFinds sound result).sound
    | error fault after =>
      obtain rfl | ⟨direct, rfl⟩ := followFails result
      · exact sound
      · exact eachLeaves ih sound

structure Idle (graph : Graph) (p : Progress) : Prop where
  visiting : p.visiting = []
  stack : p.stack = []
  sound : Known.Sound graph p.known

theorem Idle.search {graph : Graph} {p : Progress} (idle : Idle graph p) (n : Nat) (name : String) :
    search graph n name p = p.back (follow graph n [] name p.known) := by
  rw [← idle.stack]
  exact searchBack fun m => by rw [idle.visiting, idle.stack]

theorem leftBack {α : Type} (p : Progress) (r : EStateM.Result Fault Known α) :
    left (p.back r) = { p with known := left r } := by
  cases r <;> rfl

theorem Idle.asked {graph : Graph} {p : Progress} (idle : Idle graph p) (name : String) :
    Idle graph (left (linearize graph name p)) := by
  rw [linearize, idle.search, leftBack]
  exact ⟨idle.visiting, idle.stack, followLeaves idle.sound⟩

theorem Idle.ok {graph : Graph} {p after : Progress} (idle : Idle graph p) {name : String} {line : List String}
    (found : linearize graph name p = .ok line after) : Idle graph after := by
  have next := idle.asked name
  rwa [found] at next

theorem startIdle (graph : Graph) : Idle graph {} := ⟨rfl, rfl, Known.emptySound graph⟩

theorem askedIdle (graph : Graph) (history : List String) : Idle graph (asked graph history) := by
  induction history with
  | nil => exact startIdle graph
  | cons name earlier ih => exact ih.asked name

theorem Idle.finds {graph : Graph} {p after : Progress} (idle : Idle graph p) {name : String} {line : List String}
    (ok : linearize graph name p = .ok line after) : Finds graph [] name p.known line after.known := by
  rw [linearize, idle.search] at ok
  cases found : follow graph (graph.length + 1) [] name p.known with
  | error fault k =>
    rw [found] at ok
    cases ok
  | ok own k =>
    rw [found] at ok
    cases ok
    exact followFinds idle.sound found

theorem linearizeIff {graph : Graph} {history : List String} {name : String} {line : List String} :
    (∃ after, linearize graph name (asked graph history) = .ok line after) ↔ Ordered graph name line := by
  have idle := askedIdle graph history
  constructor
  · rintro ⟨after, ok⟩
    have finds := idle.finds ok
    exact finds.sound.ordered finds.found
  · intro h
    obtain ⟨after, found⟩ := h.found (Nat.le_succ_of_le h.short) (fun _ _ => List.not_mem_nil) idle.sound
    exact ⟨_, by rw [linearize, idle.search, found]; rfl⟩

/- The order of a contract after any questions that went before: nothing depends on the bounds, there is one exactly
when the orders of the bases merge, which they do when they can be kept together, and it is the contract with all
its ancestors. A contract that is missing among them or above itself leaves none. -/
theorem linearizationExact (graph : Graph) (history : List String) (name : String) :
    (∀ more, search graph (graph.length + 1 + more) name (asked graph history) =
      linearize graph name (asked graph history)) ∧
    (∀ sequences more, mergeSteps (sequences.flatten.length + more) sequences = merge sequences) ∧
    (∀ sequences, (∃ order, merge sequences = some order) ↔
      (∀ s ∈ sequences, "" ∉ s) ∧ ∃ order, Kept sequences order) ∧
    (∀ line, (∃ after, linearize graph name (asked graph history) = .ok line after) ↔ Ordered graph name line) ∧
    (∀ line after, linearize graph name (asked graph history) = .ok line after →
      line.head? = some name ∧ line.Nodup ∧ (∀ m, m ∈ line ↔ Relation.ReflTransGen (Base graph) name m) ∧
      ∃ direct, graph.lookup name = some direct ∧ direct.reverse.Sublist line ∧
        ∀ b ∈ direct, ∀ earlier, ∃ own later,
          linearize graph b (asked graph earlier) = .ok own later ∧ own.Sublist line) ∧
    ((∃ m, Relation.ReflTransGen (Base graph) name m ∧
        (graph.lookup m = none ∨ Relation.TransGen (Base graph) m m)) →
      ∃ fault after, linearize graph name (asked graph history) = .error fault after) := by
  refine ⟨fun more => ?_, mergeSettled, mergeExists, fun line => linearizeIff, fun line after ok => ?_, ?_⟩
  · have way := Descent.Way.start (graph.map Prod.fst)
    rw [List.length_map] at way
    rw [linearize, (askedIdle graph history).search, (askedIdle graph history).search, followSettled way]
  · have h := linearizeIff.1 ⟨after, ok⟩
    obtain ⟨direct, declared, listed⟩ := h.declared
    refine ⟨by rw [h.starts]; rfl, h.nodup, h.mem, direct, declared, listed.trans (List.tail_sublist line), ?_⟩
    intro b inside earlier
    obtain ⟨own, ordered, within⟩ := h.base ⟨direct, declared, inside⟩
    obtain ⟨later, found⟩ := linearizeIff.2 ordered
    exact ⟨own, later, found, within.trans (List.tail_sublist line)⟩
  · rintro ⟨m, above, wrong⟩
    cases result : linearize graph name (asked graph history) with
    | error fault after => exact ⟨fault, after, rfl⟩
    | ok line after =>
      obtain ⟨own, ordered, -⟩ := (linearizeIff.1 ⟨after, result⟩).ancestor above
      obtain ⟨direct, declared, -⟩ := ordered.declared
      rcases wrong with missing | cycle
      · rw [declared] at missing
        cases missing
      · exact absurd cycle ordered.founded.acyclic

def diamond : Graph := [("Owned", []), ("Token", ["Owned"]), ("Vault", ["Owned"]), ("Bank", ["Token", "Vault"])]

theorem diamondOrdered : ∃ after,
    linearize diamond "Bank" (asked diamond ["Vault"]) = .ok ["Bank", "Vault", "Token", "Owned"] after ∧
    ∀ m, m ∈ ["Bank", "Vault", "Token", "Owned"] ↔ Relation.ReflTransGen (Base diamond) "Bank" m := by
  have exact := linearizationExact diamond ["Vault"] "Bank"
  exact ⟨_, rfl, (exact.2.2.2.2.1 _ _ rfl).2.2.1⟩

end CellChain.Lineage
