import Mathlib
import CellChain.Description.Sources
import CellChain.Proofs.Descent
import CellChain.Proofs.Emission
import CellChain.Proofs.Paths
/-! How imports are followed. Files stand for their absolute paths, so the imports of a workspace are a graph on them.
A search from a file that can be read, with everything it leads to, comes to an end; it complains exactly when a file
leads back to itself, and otherwise lists every file once, after those it imports. -/
namespace CellChain.Description

open Relation (ReflTransGen TransGen)

variable {decoder : Decoder}

def Holds (decoder : Decoder) (w : Workspace) (path : String) (d : Description) : Prop :=
  ∃ text, w.read path = .ok text ∧ decoder text = .ok d

inductive Met (decoder : Decoder) (w : Workspace) (entry : String) : String → Prop
  | entry : Met decoder w entry entry
  | imported {path : String} {d : Description} {i : TextEntry} (met : Met decoder w entry path)
      (holds : Holds decoder w path d)
      (listed : i ∈ d.imports) : Met decoder w entry (Path.join (Path.dir path) i.text)

def Imports (decoder : Decoder) (w : Workspace) (a b : String) : Prop :=
  ∃ path d, w.absolute path = a ∧ Holds decoder w path d ∧ ∃ i ∈ d.imports, Path.join (Path.dir a) i.text = b

def Single (w : Workspace) : Prop := ∀ f ∈ w.files, ∀ g ∈ w.files, w.absolute f.1 = w.absolute g.1 → f.2 = g.2

structure Readable (decoder : Decoder) (w : Workspace) (entry : String) : Prop where
  single : Single w
  holds : ∀ path, Met decoder w entry path → ∃ d, Holds decoder w path d

theorem Holds.same {w : Workspace} (single : Single w) {p q : String} {d e : Description} (first : Holds decoder w p d)
    (second : Holds decoder w q e) (same : w.absolute p = w.absolute q) : d = e := by
  obtain ⟨s, read, decoded⟩ := first
  obtain ⟨t, again, other⟩ := second
  obtain ⟨here, left, -⟩ := Workspace.readFile read
  obtain ⟨there, right, -⟩ := Workspace.readFile again
  have text : s = t := single _ here _ there (left.trans (same.trans right.symm))
  rw [text, other] at decoded
  exact (Except.ok.inj decoded).symm

theorem importsIff {w : Workspace} {entry : String} (readable : Readable decoder w entry) {path : String}
    {d : Description} (holds : Holds decoder w path d) (b : String) :
    Imports decoder w (w.absolute path) b ↔ ∃ i ∈ d.imports, w.absolute (Path.join (Path.dir path) i.text) = b := by
  obtain ⟨text, read, decoded⟩ := holds
  simp only [Workspace.readsImport read]
  constructor
  · rintro ⟨other, e, same, own, listed⟩
    rwa [own.same readable.single ⟨text, read, decoded⟩ same] at listed
  · exact fun listed => ⟨path, d, rfl, ⟨text, read, decoded⟩, listed⟩

structure Circle (decoder : Decoder) (w : Workspace) (entry : String) (chain : List String) : Prop where
  starts : chain.head? = some (w.absolute entry)
  follows : chain.IsChain (Imports decoder w)
  returns : ∃ above a loop, chain = above ++ a :: (loop ++ [a])

theorem chainPairs {w : Workspace} {chain : List String} (follows : chain.IsChain (Imports decoder w)) :
    chain.Pairwise (TransGen (Imports decoder w)) :=
  List.isChain_iff_pairwise.1 (follows.imp fun _ _ => TransGen.single)

theorem chainReaches {w : Workspace} {chain : List String} {e a : String} (starts : chain.head? = some e)
    (follows : chain.IsChain (Imports decoder w)) (inside : a ∈ chain) : ReflTransGen (Imports decoder w) e a := by
  cases chain with
  | nil => cases inside
  | cons x rest =>
    cases starts
    cases inside with
    | head => exact .refl
    | tail _ later => exact ((List.pairwise_cons.1 (chainPairs follows)).1 a later).to_reflTransGen

theorem Circle.cycle {w : Workspace} {entry : String} {chain : List String} (h : Circle decoder w entry chain) :
    ∃ a, ReflTransGen (Imports decoder w) (w.absolute entry) a ∧ TransGen (Imports decoder w) a a := by
  obtain ⟨above, a, loop, divided⟩ := h.returns
  refine ⟨a, chainReaches h.starts h.follows (by simp [divided]), ?_⟩
  have pairs := chainPairs h.follows
  rw [divided] at pairs
  exact (List.pairwise_cons.1 (List.pairwise_append.1 pairs).2.1).1 a (by simp)

def Progress.listed (w : Workspace) (p : Progress) : List String := p.sources.map fun s => w.absolute s.path

/- What holds while the imports of the files in `stack` are visited: the files that were met are these and the listed
ones, each once, and unless there was a complaint every listed file comes after those it imports. -/
structure Sorted (decoder : Decoder) (w : Workspace) (entry : String) (stack : List String) (p : Progress) : Prop where
  resolved : ∀ a, a ∈ p.resolved ↔ a ∈ stack ∨ a ∈ p.listed w
  once : (p.listed w).Nodup
  apart : ∀ a ∈ stack, a ∉ p.listed w
  held : ∀ s ∈ p.sources, Holds decoder w s.path s.description
  reached : ∀ a ∈ p.listed w, ReflTransGen (Imports decoder w) (w.absolute entry) a
  circles : ∀ c ∈ p.complaints, ∃ chain, c.fault = .circularImport chain ∧ Circle decoder w entry chain
  ordered : p.complaints = [] → ∀ before a after, p.listed w = before ++ a :: after →
    ∀ b, Imports decoder w a b → b ∈ before

structure Visits (decoder : Decoder) (w : Workspace) (entry : String) (stack : List String) (path : String)
    (p q : Progress) : Prop where
  sorted : Sorted decoder w entry stack q
  more : p.listed w <+: q.listed w
  clear : q.complaints = [] → p.complaints = [] ∧ w.absolute path ∈ q.listed w
  last : w.absolute path ∉ stack → w.absolute path ∉ p.resolved → ∃ before d, q.sources = before ++ [⟨path, d⟩]

theorem importsVisited {w : Workspace} {entry path : String} {stack : List String}
    {find : String → Place → Progress → Except SourceError Progress} {is : List TextEntry}
    (h : ∀ i ∈ is, ∀ place p, Sorted decoder w entry stack p → ∃ q,
    find (Path.join (Path.dir path) i.text) place p = .ok q ∧
      Visits decoder w entry stack (Path.join (Path.dir path) i.text) p q)
    {p : Progress} (sorted : Sorted decoder w entry stack p) :
    ∃ q, visitImports find path is p = .ok q ∧ Sorted decoder w entry stack q ∧ p.listed w <+: q.listed w ∧
      (q.complaints = [] → p.complaints = [] ∧
        ∀ i ∈ is, w.absolute (Path.join (Path.dir path) i.text) ∈ q.listed w) := by
  induction is generalizing p with
  | nil => exact ⟨p, rfl, sorted, List.prefix_refl _, fun clear => ⟨clear, nofun⟩⟩
  | cons i rest ih =>
    obtain ⟨middle, one, visits⟩ := h i List.mem_cons_self (placeOf path i.mark) p sorted
    obtain ⟨q, two, keeps, more, clear⟩ := ih (fun j inside => h j (List.mem_cons_of_mem _ inside)) visits.sorted
    refine ⟨q, ?_, keeps, visits.more.trans more, fun none => ?_⟩
    · simp only [visitImports, bind, Except.bind, one]
      exact two
    · obtain ⟨before, others⟩ := clear none
      obtain ⟨start, own⟩ := visits.clear before
      refine ⟨start, fun j inside => ?_⟩
      rcases List.mem_cons.1 inside with rfl | later
      · exact more.subset own
      · exact others j later

abbrev Stacked (w : Workspace) (n : Nat) (stack : List String) : Prop :=
  Descent.Way (w.files.map fun f => w.absolute f.1) n stack

theorem stackedPush {w : Workspace} {n : Nat} {stack : List String} {path text : String} (h : Stacked w (n + 1) stack)
    (new : w.absolute path ∉ stack) (read : w.read path = .ok text) : Stacked w n (stack ++ [w.absolute path]) := by
  obtain ⟨inside, same, -⟩ := Workspace.readFile read
  exact h.push new (List.mem_map.2 ⟨_, inside, same⟩)

theorem visitSettled {w : Workspace} {n more : Nat} {stack : List String} {path : String} {importer : Place}
    {p : Progress} (stacked : Stacked w n stack) :
    visit decoder w (n + more) stack path importer p = visit decoder w n stack path importer p := by
  induction n generalizing stack path importer p with
  | zero => exact stacked.full.elim
  | succ n ih =>
    rw [Nat.succ_add, visit, visit]
    by_cases stands : w.absolute path ∈ stack
    · rw [if_pos (List.contains_iff_mem.2 stands), if_pos (List.contains_iff_mem.2 stands)]
    · rw [if_neg (List.contains_iff_mem.not.2 stands), if_neg (List.contains_iff_mem.not.2 stands)]
      cases read : w.read path with
      | error e => rfl
      | ok text =>
        have same : visit decoder w (n + more) (stack ++ [w.absolute path]) =
          visit decoder w n (stack ++ [w.absolute path]) := by
          funext path importer p
          exact ih (stackedPush stacked stands read)
        rw [same]

namespace Sorted

variable {w : Workspace} {entry path : String} {stack : List String} {p : Progress}

theorem complain (h : Sorted decoder w entry stack p) (circle : Circle decoder w entry (stack ++ [w.absolute path]))
    (importer : Place) :
    Sorted decoder w entry stack { p with
      complaints := p.complaints ++ [⟨importer, .circularImport (stack ++ [w.absolute path])⟩] } := by
  refine ⟨h.resolved, h.once, h.apart, h.held, h.reached, fun c inside => ?_, fun none => by simp at none⟩
  rcases List.mem_append.1 inside with before | last
  · exact h.circles c before
  · rw [List.mem_singleton.1 last]
    exact ⟨_, rfl, circle⟩

theorem enter (h : Sorted decoder w entry stack p) {a : String} (new : a ∉ p.resolved) :
    Sorted decoder w entry (stack ++ [a]) { p with resolved := a :: p.resolved } := by
  have other : a ∉ p.listed w := fun listed => new ((h.resolved a).2 (.inr listed))
  refine ⟨fun x => ?_, h.once, fun x inside => ?_, h.held, h.reached, h.circles, h.ordered⟩
  · have own := h.resolved x
    change x ∈ a :: p.resolved ↔ x ∈ stack ++ [a] ∨ x ∈ p.listed w
    rw [List.mem_cons, List.mem_append, List.mem_singleton]
    tauto
  · rcases List.mem_append.1 inside with before | last
    · exact h.apart x before
    · rw [List.mem_singleton.1 last]
      exact other

theorem leave {d : Description} (h : Sorted decoder w entry (stack ++ [w.absolute path]) p)
    (new : w.absolute path ∉ stack)
    (holds : Holds decoder w path d) (reached : ReflTransGen (Imports decoder w) (w.absolute entry) (w.absolute path))
    (imports : p.complaints = [] → ∀ b, Imports decoder w (w.absolute path) b → b ∈ p.listed w) :
    Sorted decoder w entry stack { p with sources := p.sources ++ [⟨path, d⟩] } := by
  have listed : ({ p with sources := p.sources ++ [⟨path, d⟩] } : Progress).listed w =
      p.listed w ++ [w.absolute path] := List.map_append
  have other : w.absolute path ∉ p.listed w := h.apart _ (by simp)
  constructor
  case resolved =>
    intro x
    rw [listed, List.mem_append, List.mem_singleton]
    change x ∈ p.resolved ↔ _
    rw [h.resolved x, List.mem_append, List.mem_singleton]
    tauto
  case once =>
    rw [listed]
    simpa using h.once.concat other
  case apart =>
    intro x inside
    rw [listed, List.mem_append, List.mem_singleton, not_or]
    exact ⟨h.apart x (List.mem_append_left _ inside), fun same => new (same ▸ inside)⟩
  case held =>
    intro s inside
    rcases List.mem_append.1 inside with before | last
    · exact h.held s before
    · rw [List.mem_singleton.1 last]
      exact holds
  case reached =>
    intro x inside
    rw [listed] at inside
    rcases List.mem_append.1 inside with before | last
    · exact h.reached x before
    · rw [List.mem_singleton.1 last]
      exact reached
  case circles => exact h.circles
  case ordered =>
    intro none before a after divided b edge
    rw [listed] at divided
    rcases List.eq_nil_or_concat after with rfl | ⟨others, last, rfl⟩
    · obtain ⟨same, final⟩ := List.append_inj' divided rfl
      cases final
      rw [← same]
      exact imports none b edge
    · rw [List.concat_eq_append, ← List.cons_append, ← List.append_assoc] at divided
      exact h.ordered none before a others (List.append_inj' divided rfl).1 b edge

end Sorted

theorem visitVisits {w : Workspace} {entry : String} (readable : Readable decoder w entry) {n : Nat}
    {stack : List String}
    {path : String} {importer : Place} {p : Progress} (met : Met decoder w entry path) (stacked : Stacked w n stack)
    (starts : (stack ++ [w.absolute path]).head? = some (w.absolute entry))
    (follows : (stack ++ [w.absolute path]).IsChain (Imports decoder w)) (sorted : Sorted decoder w entry stack p) :
    ∃ q, visit decoder w n stack path importer p = .ok q ∧ Visits decoder w entry stack path p q := by
  induction n generalizing stack path importer p with
  | zero => exact stacked.full.elim
  | succ n ih =>
    rw [visit]
    by_cases stands : w.absolute path ∈ stack
    · rw [if_pos (List.contains_iff_mem.2 stands)]
      obtain ⟨above, loop, divided⟩ := List.append_of_mem stands
      have circle : Circle decoder w entry (stack ++ [w.absolute path]) :=
        ⟨starts, follows, above, _, loop, by rw [divided, List.append_assoc, List.cons_append]⟩
      exact ⟨_, rfl, sorted.complain circle importer, List.prefix_refl _, fun none => by simp at none,
        fun new => absurd stands new⟩
    · rw [if_neg (List.contains_iff_mem.not.2 stands)]
      by_cases known : w.absolute path ∈ p.resolved
      · rw [if_pos (List.contains_iff_mem.2 known)]
        have listed := ((sorted.resolved _).1 known).resolve_left stands
        exact ⟨_, rfl, sorted, List.prefix_refl _, fun none => ⟨none, listed⟩, fun _ new => absurd known new⟩
      · rw [if_neg (List.contains_iff_mem.not.2 known)]
        obtain ⟨d, text, read, decoded⟩ := readable.holds path met
        have holds : Holds decoder w path d := ⟨text, read, decoded⟩
        have targets := importsIff readable holds
        have next : ∀ i ∈ d.imports, ∀ place p, Sorted decoder w entry (stack ++ [w.absolute path]) p →
            ∃ q, visit decoder w n (stack ++ [w.absolute path]) (Path.join (Path.dir path) i.text) place p = .ok q ∧
              Visits decoder w entry (stack ++ [w.absolute path]) (Path.join (Path.dir path) i.text) p q := by
          intro i inside place p sorted
          have edge := (targets _).2 ⟨i, inside, rfl⟩
          refine ih (met.imported holds inside) (stackedPush stacked stands read) ?_ ?_ sorted
          · rw [List.head?_append, starts]
            rfl
          · rw [List.append_assoc, List.singleton_append, List.isChain_split]
            exact ⟨follows, List.isChain_pair.2 edge⟩
        obtain ⟨q, ok, keeps, more, clear⟩ := importsVisited next (sorted.enter known)
        have imports : q.complaints = [] → ∀ b, Imports decoder w (w.absolute path) b → b ∈ q.listed w := by
          intro none b edge
          obtain ⟨i, inside, rfl⟩ := (targets b).1 edge
          exact (clear none).2 i inside
        have reached := chainReaches starts follows (a := w.absolute path) (by simp)
        refine ⟨{ q with sources := q.sources ++ [⟨path, d⟩] }, ?_, keeps.leave stands holds reached imports, ?_, ?_,
          ?_⟩
        · simp only [read, decoded, Except.mapError, bind, Except.bind, ok]
        · exact more.trans (by simp [Progress.listed])
        · exact fun none => ⟨(clear none).1, by simp [Progress.listed]⟩
        · exact fun _ _ => ⟨q.sources, d, rfl⟩

theorem Sorted.before {w : Workspace} {entry : String} {stack : List String} {p : Progress}
    (h : Sorted decoder w entry stack p) (clear : p.complaints = []) {a b : String}
    (leads : TransGen (Imports decoder w) a b)
    {before after : List String} (divided : p.listed w = before ++ a :: after) : b ∈ before := by
  induction leads using TransGen.head_induction_on generalizing before after with
  | single edge => exact h.ordered clear before _ after divided b edge
  | head edge _ ih =>
    -- What is imported stands before the file, and what it leads to stands before that.
    have inside := h.ordered clear before _ after divided _ edge
    obtain ⟨above, under, rfl⟩ := List.append_of_mem inside
    rw [List.append_assoc, List.cons_append] at divided
    exact List.mem_append_left _ (ih divided)

theorem Sorted.noCycle {w : Workspace} {entry : String} {stack : List String} {p : Progress}
    (h : Sorted decoder w entry stack p) (clear : p.complaints = []) {a : String} (listed : a ∈ p.listed w) :
    ¬ TransGen (Imports decoder w) a a := by
  intro cycle
  obtain ⟨before, after, divided⟩ := List.append_of_mem listed
  have again := h.before clear cycle divided
  have once := h.once
  rw [divided] at once
  exact (List.nodup_append.1 once).2.2 a again a List.mem_cons_self rfl

theorem Sorted.closed {w : Workspace} {entry : String} {stack : List String} {p : Progress}
    (h : Sorted decoder w entry stack p) (clear : p.complaints = []) (first : w.absolute entry ∈ p.listed w)
    {a : String}
    (reached : ReflTransGen (Imports decoder w) (w.absolute entry) a) : a ∈ p.listed w := by
  induction reached with
  | refl => exact first
  | tail _ edge ih =>
    obtain ⟨before, after, divided⟩ := List.append_of_mem ih
    rw [divided]
    exact List.mem_append_left _ (h.ordered clear before _ after divided _ edge)

/- The search from a readable file never runs into its bound and gives a list of files. It complains exactly when the
file leads to one that leads to itself, each time with such a chain. Otherwise the list has every file that is
reached once, behind those it imports, and the file itself last. -/
theorem importsResolved {w : Workspace} {entry : String} (readable : Readable decoder w entry) :
    (∀ more, visit decoder w (w.files.length + 1 + more) [] entry ⟨"", 0, 0⟩ {} = sources decoder w entry) ∧
    ∃ p, sources decoder w entry = .ok p ∧
      (∀ s ∈ p.sources, Holds decoder w s.path s.description) ∧
      (∀ c ∈ p.complaints, ∃ chain, c.fault = .circularImport chain ∧ Circle decoder w entry chain) ∧
      (p.complaints ≠ [] ↔ ∃ a, ReflTransGen (Imports decoder w) (w.absolute entry) a ∧
        TransGen (Imports decoder w) a a) ∧
      (p.complaints = [] →
        (p.listed w).Nodup ∧
        (∀ a, a ∈ p.listed w ↔ ReflTransGen (Imports decoder w) (w.absolute entry) a) ∧
        (∀ before a after, p.listed w = before ++ a :: after → ∀ b, Imports decoder w a b → b ∈ before) ∧
        ∃ before d, p.sources = before ++ [⟨entry, d⟩]) := by
  have stacked : Stacked w (w.files.length + 1) [] := by
    have way := Descent.Way.start (w.files.map fun f => w.absolute f.1)
    rwa [List.length_map] at way
  have fresh : Sorted decoder w entry [] {} := by
    refine ⟨?_, ?_, ?_, ?_, ?_, ?_, ?_⟩ <;> simp [Progress.listed]
  obtain ⟨p, ok, visits⟩ := visitVisits readable .entry stacked rfl (List.isChain_singleton _) fresh
  have sorted := visits.sorted
  refine ⟨fun more => visitSettled stacked, p, ok, sorted.held, sorted.circles, ⟨fun some => ?_, ?_⟩, fun clear => ?_⟩
  · obtain ⟨c, inside⟩ := List.exists_mem_of_ne_nil _ some
    obtain ⟨chain, -, circle⟩ := sorted.circles c inside
    exact circle.cycle
  · rintro ⟨a, reached, cycle⟩ clear
    have first := (visits.clear clear).2
    exact sorted.noCycle clear (sorted.closed clear first reached) cycle
  · have first := (visits.clear clear).2
    have last := visits.last List.not_mem_nil List.not_mem_nil
    exact ⟨sorted.once, fun a => ⟨sorted.reached a, sorted.closed clear first⟩, sorted.ordered clear, last⟩

theorem Readable.ofPaths {w : Workspace} {entry : String} (paths : List String) (single : Single w)
    (first : entry ∈ paths)
    (closed : ∀ path ∈ paths, ∃ text, w.read path = .ok text ∧ ∃ d, decoder text = .ok d ∧
      ∀ i ∈ d.imports, Path.join (Path.dir path) i.text ∈ paths) : Readable decoder w entry := by
  have inside : ∀ path, Met decoder w entry path → path ∈ paths := by
    intro path met
    induction met with
    | entry => exact first
    | imported _ holds listed ih =>
      obtain ⟨text, read, d, decoded, within⟩ := closed _ ih
      obtain ⟨other, again, same⟩ := holds
      rw [read] at again
      cases again
      rw [decoded] at same
      cases same
      exact within _ listed
  refine ⟨single, fun path met => ?_⟩
  obtain ⟨text, read, d, decoded, -⟩ := closed path (inside path met)
  exact ⟨d, text, read, decoded⟩

def sharedSources : Workspace :=
  ⟨"/work", [("main.yaml", "imports: [lib/base.yaml, ./lib/base.yaml]"), ("lib/base.yaml", "contracts: []")]⟩

theorem sharedReadable : Readable decode sharedSources "main.yaml" :=
  .ofPaths ["main.yaml", "lib/base.yaml"] (by unfold Single; decide +kernel) (by decide) (by decide +kernel)

theorem sharedResolved :
    Readable decode sharedSources "main.yaml" ∧ ∃ p, sources decode sharedSources "main.yaml" = .ok p ∧
    p.listed sharedSources = ["/work/lib/base.yaml", "/work/main.yaml"] ∧
    ∀ a, a ∈ p.listed sharedSources ↔ ReflTransGen (Imports decode sharedSources) "/work/main.yaml" a := by
  have found : ∃ p, sources decode sharedSources "main.yaml" = .ok p ∧ p.complaints.isEmpty = true ∧
      p.listed sharedSources = ["/work/lib/base.yaml", "/work/main.yaml"] := by decide +kernel
  obtain ⟨p, ok, clear, listed⟩ := found
  have here : sharedSources.absolute "main.yaml" = "/work/main.yaml" := by decide +kernel
  obtain ⟨-, q, again, -, -, -, settled⟩ := importsResolved sharedReadable
  obtain rfl : p = q := Except.ok.inj (ok.symm.trans again)
  have exact := (settled (List.isEmpty_iff.1 clear)).2.1
  rw [here] at exact
  exact ⟨sharedReadable, p, ok, listed, exact⟩

end CellChain.Description
