import Mathlib
import CellChain.Description.Unit
import CellChain.Proofs.Ancestry
/-! Orders do not depend on what was asked for before. Orders are kept from one question to the next, and also those
that a failed search found on its way; but what is kept is right, and the ancestors of a contract with an order never
lead back to those who ask for it. So a search that finds an order among the known ones loses nothing by it, neither a
result nor a fault, and the contracts of a unit are put in order each for itself. -/
namespace CellChain.Lineage

open Relation (TransGen ReflTransGen)

def outcome {α σ : Type} : EStateM.Result Fault σ α → Except Fault α
  | .ok a _ => .ok a
  | .error fault _ => .error fault

def Leads (graph : Graph) (path : List String) (name : String) : Prop := ∀ m ∈ path, TransGen (Base graph) m name

theorem Leads.base {graph : Graph} {path : List String} {name b : String} (leads : Leads graph path name)
    (above : Base graph name b) : Leads graph (path ++ [name]) b := by
  intro m inside
  rcases List.mem_append.1 inside with earlier | last
  · exact (leads m earlier).tail above
  · rw [List.mem_singleton.1 last]
    exact .single above

variable {graph : Graph} {n : Nat} {path : List String} {name : String}

theorem Ordered.apart {line : List String} (h : Ordered graph name line) (leads : Leads graph path name) :
    ∀ m ∈ line, m ∉ path := by
  intro m inside earlier
  have above : ReflTransGen (Base graph) name m := (h.mem m).1 inside
  exact h.founded.acyclic (TransGen.trans_right above (leads m earlier))

theorem Ordered.room {line : List String} (h : Ordered graph name line) (leads : Leads graph path name)
    (way : Descent.Way (graph.map Prod.fst) n path) : line.length ≤ n := by
  -- Ancestors are not on the way, so both together are names of the graph without repetition.
  have once : (line ++ path).Nodup := h.nodup.append way.once (h.apart leads)
  have listed : ∀ m ∈ line ++ path, m ∈ graph.map Prod.fst := by
    intro m inside
    rcases List.mem_append.1 inside with own | earlier
    · exact h.listed m own
    · exact way.within m earlier
  have most := (List.subperm_of_subset once listed).length_le
  have room := way.room
  rw [List.length_append] at most
  omega

theorem Ordered.outcome {line : List String} (h : Ordered graph name line) (leads : Leads graph path name)
    (way : Descent.Way (graph.map Prod.fst) n path) {k : Known} (sound : Known.Sound graph k) :
    Lineage.outcome (follow graph n path name k) = .ok line := by
  obtain ⟨after, found⟩ := h.found (h.room leads way) (h.apart leads) sound
  rw [found]
  rfl

def concluded (name : String) (sequences : List (List String)) : Except Fault (List String) :=
  (merge sequences).elim (.error (.unmergeable name)) fun ancestors => .ok (name :: ancestors)

theorem newOutcome {k : Known} {direct : List String} (new : k.lookup name = none) (off : name ∉ path)
    (declared : graph.lookup name = some direct) :
    outcome (follow graph (n + 1) path name k) =
      (outcome (each (follow graph n (path ++ [name])) direct.reverse k)).bind fun lines =>
        concluded name (lines ++ [direct.reverse]) := by
  simp only [follow, new, off, if_false, declared, bind, EStateM.bind]
  cases each (follow graph n (path ++ [name])) direct.reverse k with
  | error fault middle => rfl
  | ok lines middle =>
    simp only [outcome, Except.bind, concluded, conclude]
    cases merge (lines ++ [direct.reverse]) with
    | none => rfl
    | some ancestors => rfl

theorem eachFailed {find : String → Finding (List String)} {b : String} {rest : List String} {k middle : Known}
    {fault : Fault} (first : find b k = .error fault middle) :
    outcome (each find (b :: rest) k) = .error fault := by
  simp only [each, bind, EStateM.bind, first, outcome]

theorem eachNext {find : String → Finding (List String)} {b : String} {rest line : List String} {k middle : Known}
    (first : find b k = .ok line middle) :
    outcome (each find (b :: rest) k) = (outcome (each find rest middle)).map (line :: ·) := by
  simp only [each, bind, EStateM.bind, first]
  cases each find rest middle with
  | error fault last => rfl
  | ok lines last => rfl

theorem eachSteady {find : String → Finding (List String)} {names : List String}
    (same : ∀ b ∈ names, ∀ k l, Known.Sound graph k → Known.Sound graph l → outcome (find b k) = outcome (find b l))
    (leaves : ∀ b k, Known.Sound graph k → Known.Sound graph (left (find b k))) {k l : Known}
    (one : Known.Sound graph k) (two : Known.Sound graph l) :
    outcome (each find names k) = outcome (each find names l) := by
  induction names generalizing k l with
  | nil => rfl
  | cons b rest ih =>
    have first := same b List.mem_cons_self k l one two
    have after := leaves b k one
    have later := leaves b l two
    cases here : find b k with
    | error fault middle =>
      cases there : find b l with
      | error other last =>
        rw [here, there] at first
        rw [eachFailed here, eachFailed there, Except.error.inj first]
      | ok line last =>
        rw [here, there] at first
        cases first
    | ok line middle =>
      cases there : find b l with
      | error fault last =>
        rw [here, there] at first
        cases first
      | ok other last =>
        rw [here, there] at first
        rw [here, left] at after
        rw [there, left] at later
        rw [eachNext here, eachNext there, Except.ok.inj first]
        rw [ih (fun c inside => same c (List.mem_cons_of_mem _ inside)) after later]

/- Two searches for the same contract, from whatever is known rightly. The induction is on the bound, which the way
leaves room in. -/
theorem followSteady (way : Descent.Way (graph.map Prod.fst) n path) (leads : Leads graph path name) {k l : Known}
    (one : Known.Sound graph k) (two : Known.Sound graph l) :
    outcome (follow graph n path name k) = outcome (follow graph n path name l) := by
  induction n generalizing path name k l with
  | zero => exact way.full.elim
  | succ n ih =>
    cases here : k.lookup name with
    | some line =>
      have ordered := one.ordered here
      rw [ordered.outcome leads way one, ordered.outcome leads way two]
    | none =>
      cases there : l.lookup name with
      | some line =>
        have ordered := two.ordered there
        rw [ordered.outcome leads way one, ordered.outcome leads way two]
      | none =>
        by_cases off : name ∈ path
        · simp only [follow, here, there, off, if_true, outcome]
        · cases declared : graph.lookup name with
          | none => simp only [follow, here, there, off, if_false, declared, outcome]
          | some direct =>
            rw [newOutcome here off declared, newOutcome there off declared]
            have next := way.push off (lookupDeclared declared)
            rw [eachSteady (fun b inside k l => ih next (leads.base ⟨direct, declared, List.mem_reverse.1 inside⟩))
              (fun _ _ => followLeaves) one two]

theorem outcomeBack {α : Type} (p : Progress) (r : EStateM.Result Fault Known α) : outcome (p.back r) = outcome r := by
  cases r <;> rfl

theorem linearizeSteady {p : Progress} (idle : Idle graph p) (name : String) :
    outcome (linearize graph name p) = outcome (linearize graph name {}) := by
  have way := Descent.Way.start (graph.map Prod.fst)
  rw [List.length_map] at way
  rw [linearize, idle.search, (startIdle graph).search, outcomeBack, outcomeBack]
  exact followSteady way (fun _ inside => absurd inside List.not_mem_nil) idle.sound (Known.emptySound graph)

/- However it ends, a search leaves no contract behind as being put in order that was not before, and takes none away.
-/
def Restores {α : Type} (x : Search α) : Prop :=
  ∀ p : Progress, (left (x p)).visiting = p.visiting ∧ (left (x p)).stack = p.stack

theorem Restores.bind {α β : Type} {x : Search α} {f : α → Search β} (first : Restores x) (next : ∀ a, Restores (f a)) :
    Restores (x >>= f) := by
  intro p
  have own := first p
  simp only [Bind.bind, EStateM.bind]
  cases found : x p with
  | error fault middle =>
    rw [found] at own
    exact own
  | ok a middle =>
    rw [found] at own
    have later := next a middle
    exact ⟨later.1.trans own.1, later.2.trans own.2⟩

theorem eachRestores {find : String → Search (List String)} (h : ∀ b, Restores (find b)) (names : List String) :
    Restores (each find names) := by
  induction names with
  | nil => exact fun p => ⟨rfl, rfl⟩
  | cons b rest ih => exact (h b).bind fun line => ih.bind fun lines p => ⟨rfl, rfl⟩

theorem settleRestores {find : String → Search (List String)} (h : ∀ b, Restores (find b)) (name : String)
    (direct : List String) : Restores (settle find name direct) := by
  refine (eachRestores h _).bind fun lines => ?_
  cases merge (lines ++ [direct.reverse]) with
  | none => exact fun p => ⟨rfl, rfl⟩
  | some ancestors => exact fun p => ⟨rfl, rfl⟩

theorem withinRestores {α : Type} {x : Search α} (h : Restores x) {p : Progress} (new : name ∉ p.visiting) :
    (left (within name x p)).visiting = p.visiting ∧ (left (within name x p)).stack = p.stack := by
  have after : left (within name x p) = (left (x (p.enter name))).leave name := by
    rw [within]
    cases x (p.enter name) <;> rfl
  obtain ⟨visiting, stack⟩ := h (p.enter name)
  have cleared := Progress.leaveEntered new p.known
  rw [after, Progress.leave, visiting, stack]
  exact ⟨(congrArg Progress.visiting cleared :), (congrArg Progress.stack cleared :)⟩

theorem searchRestores (graph : Graph) (n : Nat) (name : String) : Restores (search graph n name) := by
  induction n generalizing name with
  | zero => exact fun p => ⟨rfl, rfl⟩
  | succ n ih =>
    intro p
    simp only [search, bind, EStateM.bind, get, getThe, MonadStateOf.get, EStateM.get]
    cases p.known.lookup name with
    | some line => exact ⟨rfl, rfl⟩
    | none =>
      by_cases inside : name ∈ p.visiting
      · simp only [List.contains_iff_mem, inside, if_true]
        exact ⟨rfl, rfl⟩
      · simp only [List.contains_iff_mem, inside, if_false]
        cases graph.lookup name with
        | none => exact ⟨rfl, rfl⟩
        | some direct => exact withinRestores (settleRestores ih name direct) inside

end CellChain.Lineage

namespace CellChain.Description

open Lineage

def putAlone (graph : Graph) (c : Contract) : Reviewed Contract :=
  match outcome (linearize graph c.name {}) with
  | .ok line => pure { c with linearized := line }
  | .error fault => do
    complain c.place (.lineage fault)
    pure c

theorem putEachAlone (graph : Graph) {contracts : List Contract} {p : Lineage.Progress} (idle : Idle graph p) :
    putInOrder graph contracts p = each (putAlone graph) contracts := by
  induction contracts generalizing p with
  | nil => rfl
  | cons c rest ih =>
    have same := linearizeSteady idle c.name
    have after := idle.asked c.name
    rw [putInOrder, each, putAlone, ← same]
    cases found : linearize graph c.name p with
    | ok line middle =>
      rw [found, left] at after
      simp only [outcome, ih after, pure_bind]
    | error fault middle =>
      rw [found, left] at after
      simp only [outcome, ih after, bind_assoc, pure_bind]

end CellChain.Description

namespace CellChain.Lineage

/- Whatever contracts were asked for before, with or without success, a contract gets the same order, or the same fault,
as from a fresh start. Every search, also one within another, ends with the contracts being put in order as they were
when it began, so that between two questions there are none. The contracts of a unit, which are asked for one after the
other, each get what they would get alone. -/
theorem historyForgotten (graph : Graph) :
    (∀ (history : List String) (name : String),
      outcome (linearize graph name (asked graph history)) = outcome (linearize graph name {})) ∧
    (∀ (bound : Nat) (name : String) (p : Progress), (left (search graph bound name p)).visiting = p.visiting ∧
      (left (search graph bound name p)).stack = p.stack) ∧
    (∀ history : List String, (asked graph history).visiting = [] ∧ (asked graph history).stack = []) ∧
    ∀ contracts, Description.putInOrder graph contracts {} =
      Description.each (Description.putAlone graph) contracts := by
  refine ⟨fun history name => linearizeSteady (askedIdle graph history) name, searchRestores graph, ?_, ?_⟩
  · intro history
    exact ⟨(askedIdle graph history).visiting, (askedIdle graph history).stack⟩
  · intro contracts
    exact Description.putEachAlone graph (startIdle graph)

example : let graph := [("Owned", []), ("Token", ["Vault", "Owned"]), ("Vault", ["Token"])]
    asked graph ["Token"] = { known := [("Owned", ["Owned"])] } ∧
    outcome (linearize graph "Vault" (asked graph ["Token"])) = .error (.cyclic ["Vault", "Token", "Vault"]) :=
  ⟨rfl, rfl⟩

end CellChain.Lineage
