import Mathlib
import CellChain.Contract.Lineage
/-! What the search for orders keeps. A merge has every sequence in it and nothing else; every order that is
known is a contract followed by the merge of the orders of its bases, so the order of each ancestor is known too
and stands in it. -/
namespace CellChain.Lineage

theorem memOfDrop {name x : String} {s : List String} (inside : x ∈ dropHead name s) : x ∈ s := by
  cases s with
  | nil => exact inside
  | cons y rest =>
    rw [dropHead] at inside
    split at inside
    · exact List.mem_cons_of_mem _ inside
    · exact inside

theorem sublistOfDrop {name : String} {s order : List String} (kept : (dropHead name s).Sublist order) :
    s.Sublist (name :: order) := by
  cases s with
  | nil => exact List.nil_sublist _
  | cons y rest =>
    rw [dropHead] at kept
    split at kept
    · rename_i same
      rw [same]
      exact kept.cons_cons name
    · exact kept.cons name

theorem headTaken {sequences : List (List String)} {name : String} (found : nextHead? sequences = some name) :
    name ≠ "" ∧ (∃ s ∈ sequences, s.head? = some name) ∧ ∀ s ∈ sequences, name ∉ s.tail := by
  obtain ⟨first, named⟩ := Option.filter_eq_some_iff.1 found
  obtain ⟨s, inside, first⟩ := List.exists_of_findSome?_eq_some first
  obtain ⟨head, free⟩ := Option.filter_eq_some_iff.1 first
  simp only [inTail, Bool.not_eq_true', List.any_eq_false, List.contains_iff_mem] at free
  exact ⟨of_decide_eq_true named, ⟨s, inside, head⟩, free⟩

theorem headInside {sequences : List (List String)} {name : String} (found : nextHead? sequences = some name) :
    ∃ s ∈ sequences, name ∈ s := by
  obtain ⟨s, inside, head⟩ := (headTaken found).2.1
  exact ⟨s, inside, List.mem_of_mem_head? head⟩

theorem headDropped {sequences : List (List String)} {name : String} (found : nextHead? sequences = some name)
    {s : List String} (inside : s ∈ sequences) : name ∉ dropHead name s := by
  cases s with
  | nil => exact List.not_mem_nil
  | cons y rest =>
    have behind : name ∉ rest := (headTaken found).2.2 _ inside
    rw [dropHead]
    split
    · exact behind
    · rename_i other
      exact List.not_mem_cons_of_ne_of_not_mem (Ne.symm other) behind

inductive Merges : List (List String) → List String → Prop
  | done {sequences : List (List String)} (empty : ∀ s ∈ sequences, s = []) : Merges sequences []
  | take {sequences : List (List String)} {head : String} {rest : List String}
      (found : nextHead? sequences = some head) (others : Merges (sequences.map (dropHead head)) rest) :
      Merges sequences (head :: rest)

theorem mergesOfSteps {n : Nat} {sequences : List (List String)} {order : List String}
    (ok : mergeSteps n sequences = some order) : Merges sequences order := by
  induction n generalizing sequences order with
  | zero =>
    unfold mergeSteps at ok
    split at ok
    · rename_i empty
      cases ok
      exact .done (by simpa using empty)
    · cases ok
  | succ n ih =>
    unfold mergeSteps at ok
    split at ok
    · rename_i empty
      cases ok
      exact .done (by simpa using empty)
    · obtain ⟨head, found, ok⟩ := Option.bind_eq_some_iff.1 ok
      obtain ⟨rest, others, ok⟩ := Option.bind_eq_some_iff.1 ok
      cases ok
      exact .take found (ih others)

theorem Merges.keeps {sequences : List (List String)} {order : List String} (h : Merges sequences order) :
    ∀ s ∈ sequences, s.Sublist order := by
  induction h with
  | done empty =>
    intro s inside
    rw [empty s inside]
  | take found others ih =>
    intro s inside
    exact sublistOfDrop (ih _ (List.mem_map_of_mem inside))

theorem Merges.only {sequences : List (List String)} {order : List String} (h : Merges sequences order) :
    ∀ x ∈ order, ∃ s ∈ sequences, x ∈ s := by
  induction h with
  | done empty => exact nofun
  | take found others ih =>
    intro x inside
    cases inside with
    | head => exact headInside found
    | tail _ later =>
      obtain ⟨t, dropped, member⟩ := ih x later
      obtain ⟨s, own, rfl⟩ := List.mem_map.1 dropped
      exact ⟨s, own, memOfDrop member⟩

theorem Merges.nodup {sequences : List (List String)} {order : List String} (h : Merges sequences order) :
    order.Nodup := by
  induction h with
  | done empty => exact List.nodup_nil
  | take found others ih =>
    refine List.nodup_cons.2 ⟨?_, ih⟩
    intro again
    obtain ⟨t, dropped, member⟩ := others.only _ again
    obtain ⟨s, own, rfl⟩ := List.mem_map.1 dropped
    exact headDropped found own member

abbrev Finding (α : Type) := EStateM Fault Known α

def conclude (name : String) (direct : List String) (lines : List (List String)) : Finding (List String) := fun k =>
  match merge (lines ++ [direct.reverse]) with
  | none => .error (.unmergeable name) k
  | some ancestors => .ok (name :: ancestors) ((name, name :: ancestors) :: k)

/- The search with the contracts being put in order handed down in `path`, where the program keeps them as a set and as
a stack that are changed on the way in and on the way out. -/
def follow (graph : Graph) : Nat → List String → String → Finding (List String)
  | 0, path, name, k => .error (.cyclic (path ++ [name])) k
  | n + 1, path, name, k =>
    match k.lookup name with
    | some line => .ok line k
    | none =>
      if name ∈ path then .error (.cyclic (path ++ [name])) k
      else match graph.lookup name with
        | none => .error (.unknown name) k
        | some direct => (each (follow graph n (path ++ [name])) direct.reverse >>= conclude name direct) k

namespace Progress

def back {α : Type} (p : Progress) : EStateM.Result Fault Known α → EStateM.Result Fault Progress α
  | .ok a k => .ok a { p with known := k }
  | .error fault k => .error fault { p with known := k }

theorem leaveEntered {p : Progress} {name : String} (new : name ∉ p.visiting) (k : Known) :
    { p.enter name with known := k }.leave name = { p with known := k } := by
  have others : ∀ m ∈ p.visiting, decide (m ≠ name) = true := fun m inside =>
    decide_eq_true fun same => new (same ▸ inside)
  simp only [enter, leave, List.filter_cons, List.filter_eq_self.2 others, List.dropLast_concat, ne_eq,
    not_true_eq_false, decide_false, Bool.false_eq_true, if_false]

/- The set and the stack hold the same contracts. -/
def Agrees (p : Progress) : Prop := ∀ m, m ∈ p.visiting ↔ m ∈ p.stack

theorem Agrees.enter {p : Progress} (agrees : p.Agrees) (name : String) : (p.enter name).Agrees := by
  intro m
  rw [Progress.enter, List.mem_cons, List.mem_append, List.mem_singleton, agrees m, or_comm]

end Progress

theorem eachBack {find : String → Search (List String)} {step : String → Finding (List String)} {p : Progress}
    (h : ∀ name k, find name { p with known := k } = p.back (step name k)) (names : List String) (k : Known) :
    each find names { p with known := k } = p.back (each step names k) := by
  induction names generalizing k with
  | nil => rfl
  | cons name rest ih =>
    simp only [each, bind, EStateM.bind, h]
    cases step name k with
    | error fault middle => rfl
    | ok line middle =>
      simp only [Progress.back, ih]
      cases each step rest middle with
      | error fault last => rfl
      | ok lines last => rfl

theorem settleBack {find : String → Search (List String)} {step : String → Finding (List String)} {p : Progress}
    (h : ∀ name k, find name { p with known := k } = p.back (step name k)) (name : String) (direct : List String) :
    settle find name direct p = p.back ((each step direct.reverse >>= conclude name direct) p.known) := by
  have bases : each find direct.reverse p = p.back (each step direct.reverse p.known) :=
    eachBack h direct.reverse p.known
  simp only [settle, bind, EStateM.bind, bases]
  cases each step direct.reverse p.known with
  | error fault middle => rfl
  | ok lines middle =>
    simp only [Progress.back, conclude]
    cases merge (lines ++ [direct.reverse]) with
    | none => rfl
    | some ancestors => rfl

theorem withinBack {α : Type} {x : Search α} {r : EStateM.Result Fault Known α} {p : Progress} {name : String}
    (new : name ∉ p.visiting) (h : x (p.enter name) = (p.enter name).back r) : within name x p = p.back r := by
  simp only [within, h]
  cases r with
  | ok a k => simp only [Progress.back, Progress.leaveEntered new]
  | error fault k => simp only [Progress.back, Progress.leaveEntered new]

theorem searchBack {graph : Graph} {n : Nat} {name : String} {p : Progress} (agrees : p.Agrees) :
    search graph n name p = p.back (follow graph n p.stack name p.known) := by
  induction n generalizing name p with
  | zero => rfl
  | succ n ih =>
    simp only [search, follow, bind, EStateM.bind, get, getThe, MonadStateOf.get, EStateM.get]
    cases p.known.lookup name with
    | some line => rfl
    | none =>
      by_cases inside : name ∈ p.stack
      · simp only [List.contains_iff_mem, (agrees name).2 inside, inside, if_true]
        rfl
      · have new : name ∉ p.visiting := fun again => inside ((agrees name).1 again)
        simp only [List.contains_iff_mem, new, inside, if_false]
        cases graph.lookup name with
        | none => rfl
        | some direct =>
          exact withinBack new (settleBack
            (fun b k => ih (p := { p.enter name with known := k }) (agrees.enter name)) name direct)

theorem findingOk {α β : Type} {x : Finding α} {f : α → Finding β} {k k' : Known} {b : β}
    (ok : (x >>= f) k = .ok b k') : ∃ a middle, x k = .ok a middle ∧ f a middle = .ok b k' := by
  cases first : x k with
  | error e middle => simp only [bind, EStateM.bind, first, reduceCtorEq] at ok
  | ok a middle =>
    simp only [bind, EStateM.bind, first] at ok
    exact ⟨a, middle, rfl, ok⟩

namespace Known

def Extends (before after : Known) : Prop := ∀ n line, before.lookup n = some line → after.lookup n = some line

theorem Extends.refl (k : Known) : Extends k k := fun _ _ found => found

theorem Extends.trans {k l m : Known} (first : Extends k l) (second : Extends l m) : Extends k m :=
  fun n line found => second n line (first n line found)

structure Line (graph : Graph) (k : Known) (n : String) (line : List String) : Prop where
  merged : ∃ direct lines ancestors, graph.lookup n = some direct ∧
    direct.reverse.map (fun b => k.lookup b) = lines.map some ∧ merge (lines ++ [direct.reverse]) = some ancestors ∧
      line = n :: ancestors

theorem lookupOfMap {k : Known} {names : List String} {lines : List (List String)} {b : String}
    (same : names.map (fun b => k.lookup b) = lines.map some) (inside : b ∈ names) :
    ∃ own ∈ lines, k.lookup b = some own := by
  have found : k.lookup b ∈ lines.map some := same ▸ List.mem_map_of_mem inside
  obtain ⟨own, member, equal⟩ := List.mem_map.1 found
  exact ⟨own, member, equal.symm⟩

theorem Line.mono {graph : Graph} {k l : Known} {n : String} {line : List String} (h : Line graph k n line)
    (more : Extends k l) : Line graph l n line := by
  obtain ⟨direct, lines, ancestors, declared, bases, merged, same⟩ := h.merged
  refine ⟨direct, lines, ancestors, declared, ?_, merged, same⟩
  rw [← bases]
  apply List.map_congr_left
  intro b inside
  obtain ⟨own, -, found⟩ := lookupOfMap bases inside
  rw [found, more b own found]

def Sound (graph : Graph) (k : Known) : Prop := ∀ n line, k.lookup n = some line → Line graph k n line

theorem emptySound (graph : Graph) : Sound graph [] := fun _ _ found => by cases found

theorem keepExtends {k : Known} {n : String} {line : List String} (new : k.lookup n = none) :
    Extends k ((n, line) :: k) := by
  intro m other found
  rw [List.lookup_cons]
  split
  · rename_i same
    rw [beq_iff_eq] at same
    rw [same, new] at found
    cases found
  · exact found

theorem Sound.keep {graph : Graph} {k : Known} {n : String} {line : List String} (sound : Sound graph k)
    (new : k.lookup n = none) (own : Line graph k n line) : Sound graph ((n, line) :: k) := by
  intro m other found
  apply Line.mono (k := k) _ (keepExtends new)
  rw [List.lookup_cons] at found
  split at found
  · rename_i same
    rw [beq_iff_eq] at same
    cases found
    rw [same]
    exact own
  · exact sound m other found

end Known

/- A search that finds an order leaves sound orders behind, more than before, and among them the one it found.
What is asked for on the way to a contract is not found before its own order is. -/
structure Finds (graph : Graph) (path : List String) (name : String) (k : Known) (line : List String)
    (after : Known) : Prop where
  sound : Known.Sound graph after
  more : Known.Extends k after
  found : after.lookup name = some line
  waiting : ∀ n ∈ path, k.lookup n = none → after.lookup n = none

theorem eachFinds {graph : Graph} {path : List String} {find : String → Finding (List String)}
    (h : ∀ {name k line after}, Known.Sound graph k → find name k = .ok line after →
      Finds graph path name k line after) {names : List String} {k after : Known} {lines : List (List String)}
    (sound : Known.Sound graph k) (ok : each find names k = .ok lines after) :
    Known.Sound graph after ∧ Known.Extends k after ∧ names.map (fun b => after.lookup b) = lines.map some ∧
      ∀ n ∈ path, k.lookup n = none → after.lookup n = none := by
  induction names generalizing k lines with
  | nil =>
    cases ok
    exact ⟨sound, .refl _, rfl, fun _ _ new => new⟩
  | cons name rest ih =>
    obtain ⟨line, middle, one, ok⟩ := findingOk ok
    obtain ⟨others, last, two, ok⟩ := findingOk ok
    cases ok
    have own := h sound one
    obtain ⟨keeps, more, found, waiting⟩ := ih own.sound two
    have both : (name :: rest).map (fun b => after.lookup b) = (line :: others).map some := by
      rw [List.map_cons, List.map_cons, found, more _ _ own.found]
    exact ⟨keeps, own.more.trans more, both, fun n inside new => waiting n inside (own.waiting n inside new)⟩

theorem followCases {graph : Graph} {n : Nat} {path : List String} {name : String} {k after : Known}
    {line : List String} (ok : follow graph (n + 1) path name k = .ok line after) :
    (k.lookup name = some line ∧ after = k) ∨
      (k.lookup name = none ∧ name ∉ path ∧ ∃ direct lines middle ancestors, graph.lookup name = some direct ∧
        each (follow graph n (path ++ [name])) direct.reverse k = .ok lines middle ∧
        merge (lines ++ [direct.reverse]) = some ancestors ∧ line = name :: ancestors ∧
        after = (name, line) :: middle) := by
  simp only [follow] at ok
  cases known : k.lookup name with
  | some own =>
    rw [known] at ok
    cases ok
    exact .inl ⟨rfl, rfl⟩
  | none =>
    simp only [known] at ok
    split at ok
    · cases ok
    · rename_i off
      cases declared : graph.lookup name with
      | none =>
        rw [declared] at ok
        cases ok
      | some direct =>
        rw [declared] at ok
        obtain ⟨lines, middle, bases, ok⟩ := findingOk ok
        rw [conclude] at ok
        cases merged : merge (lines ++ [direct.reverse]) with
        | none =>
          rw [merged] at ok
          cases ok
        | some ancestors =>
          rw [merged] at ok
          cases ok
          exact .inr ⟨rfl, off, direct, lines, middle, ancestors, rfl, bases, merged, rfl, rfl⟩

theorem followFinds {graph : Graph} {n : Nat} {path : List String} {name : String} {k after : Known}
    {line : List String} (sound : Known.Sound graph k) (ok : follow graph n path name k = .ok line after) :
    Finds graph path name k line after := by
  induction n generalizing path name k line after with
  | zero => cases ok
  | succ n ih =>
    obtain ⟨known, rfl⟩ | ⟨new, off, direct, lines, middle, ancestors, declared, bases, merged, rfl, rfl⟩ :=
      followCases ok
    · exact ⟨sound, .refl _, known, fun _ _ none => none⟩
    · obtain ⟨keeps, more, found, waiting⟩ := eachFinds (fun known one => ih known one) sound bases
      have fresh : middle.lookup name = none := waiting name (by simp) new
      have own : Known.Line graph middle name (name :: ancestors) :=
        ⟨direct, lines, ancestors, declared, found, merged, rfl⟩
      refine ⟨keeps.keep fresh own, more.trans (Known.keepExtends fresh), List.lookup_cons_self, ?_⟩
      intro m inside none
      have other : m ≠ name := fun same => off (same ▸ inside)
      rw [List.lookup_cons, beq_false_of_ne other]
      exact waiting m (List.mem_append_left _ inside) none

theorem Known.Line.base {graph : Graph} {k : Known} {n : String} {line direct : List String}
    (h : Known.Line graph k n line) (declared : graph.lookup n = some direct) :
    ∀ b ∈ direct, ∃ own, k.lookup b = some own ∧ own.Sublist line.tail := by
  obtain ⟨listed, lines, ancestors, here, bases, merged, rfl⟩ := h.merged
  rw [declared] at here
  cases here
  intro b inside
  obtain ⟨own, member, found⟩ := lookupOfMap bases (List.mem_reverse.2 inside)
  exact ⟨own, found, (mergesOfSteps merged).keeps own (List.mem_append_left _ member)⟩

theorem Known.Line.starts {graph : Graph} {k : Known} {n : String} {line : List String}
    (h : Known.Line graph k n line) : line = n :: line.tail := by
  obtain ⟨_, _, _, -, -, -, rfl⟩ := h.merged
  rfl

theorem Known.Sound.behind {graph : Graph} {k : Known} (sound : Known.Sound graph k) {n : String}
    {line : List String} (found : k.lookup n = some line) :
    ∀ m ∈ line.tail, ∃ own, k.lookup m = some own ∧ own.Sublist line.tail := by
  induction size : line.length using Nat.strong_induction_on generalizing n line with
  | h long ih =>
    obtain ⟨direct, lines, ancestors, declared, bases, merged, rfl⟩ := (sound n line found).merged
    have order := mergesOfSteps merged
    intro m inside
    obtain ⟨s, among, member⟩ := order.only m inside
    have part := order.keeps s among
    rcases List.mem_append.1 among with above | listed
    · obtain ⟨b, -, known⟩ := List.mem_map.1 (bases ▸ List.mem_map_of_mem above)
      rw [(sound b s known).starts] at member
      cases member with
      | head => exact ⟨s, known, part⟩
      | tail _ later =>
        have shorter : s.length < long := size ▸ Nat.lt_succ_of_le part.length_le
        obtain ⟨own, kept, within⟩ := ih s.length shorter known rfl m later
        exact ⟨own, kept, (within.trans (List.tail_sublist s)).trans part⟩
    · rw [List.mem_singleton.1 listed, List.mem_reverse] at member
      exact (sound n _ found).base declared m member

theorem Known.Sound.nodup {graph : Graph} {k : Known} (sound : Known.Sound graph k) {n : String}
    {line : List String} (found : k.lookup n = some line) : line.Nodup := by
  obtain ⟨_, _, ancestors, -, -, merged, same⟩ := (sound n line found).merged
  rw [same]
  refine List.nodup_cons.2 ⟨?_, (mergesOfSteps merged).nodup⟩
  -- A contract behind itself would have its order within a part of that order.
  intro again
  obtain ⟨own, known, within⟩ := sound.behind found n (by rw [same]; exact again)
  rw [found] at known
  cases known
  have longer := within.length_le
  rw [same] at longer
  simp at longer

end CellChain.Lineage
