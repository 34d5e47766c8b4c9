import Mathlib
import CellChain.Proofs.Completion
import CellChain.Proofs.CodecEvents
/-! When values can be stored, loaded and given defaults. Types that have an encoding can be stopped by two limits
only, the room in a cell and the width of a tuple. With groups of at most 255 members and leaves that fit an empty
cell nothing aborts, the depth is as declared, and the chain is written and read leaf by leaf. -/
namespace CellChain

namespace Ty

theorem unencodableGroup {t : Ty} {types : List Ty} (group : t.parts? = some types) :
    t.unencodable? = firstUnencodable? types := by
  cases t <;> cases group <;> simp only [unencodable?]

theorem unencodableSingle {t : Ty} (single : t.parts? = none) (target : Target) :
    t.unencodable? = none ↔ ∃ size, t.leafSize? target = some size := by
  cases t <;> cases single <;> simp [unencodable?, leafSize?]

theorem firstUnencodableCons {t : Ty} {rest : List Ty} :
    firstUnencodable? (t :: rest) = none ↔ t.unencodable? = none ∧ firstUnencodable? rest = none := by
  simp [firstUnencodable?]

theorem firstUnencodableAll {types : List Ty} :
    firstUnencodable? types = none ↔ ∀ t ∈ types, t.unencodable? = none := by
  induction types with
  | nil => simp [firstUnencodable?]
  | cons t rest ih => simp [firstUnencodableCons, ih]

def WidthOk : Ty → Prop
  | .integer _ bits => 1 ≤ bits ∧ bits ≤ 256
  | _ => True

theorem leafSizeRange {target : Target} {t : Ty} {size : Int × Int} (width : t.WidthOk)
    (address : 0 < target.addressBits) (found : t.leafSize? target = some size) :
    0 ≤ size.1 ∧ size.1 ≤ max 256 target.addressBits ∧ 0 ≤ size.2 ∧ size.2 ≤ 1 := by
  cases t <;> simp only [leafSize?, Option.some.injEq, reduceCtorEq] at found <;> subst found <;>
    simp only [WidthOk] at width <;> simp only [arrayLengthBits] <;> omega

mutual
def WidthsOk : Ty → Prop
  | .struct _ _ types | .tuple types => WidthsOkAll types
  | t => t.WidthOk

def WidthsOkAll : List Ty → Prop
  | [] => True
  | t :: rest => t.WidthsOk ∧ WidthsOkAll rest
end

theorem widthsGroup {t : Ty} {types : List Ty} (group : t.parts? = some types) :
    t.WidthsOk = WidthsOkAll types := by
  cases t <;> cases group <;> simp only [WidthsOk]

theorem widthsSingle {t : Ty} (single : t.parts? = none) : t.WidthsOk = t.WidthOk := by
  cases t <;> cases single <;> simp only [WidthsOk]

theorem sizesRange {target : Target} (address : 0 < target.addressBits) :
    (∀ t : Ty, t.WidthsOk → ∀ size ∈ t.sizes target,
      0 ≤ size.1 ∧ size.1 ≤ max 256 target.addressBits ∧ 0 ≤ size.2 ∧ size.2 ≤ 1) ∧
    ∀ types, WidthsOkAll types → ∀ size ∈ sizesAll target types,
      0 ≤ size.1 ∧ size.1 ≤ max 256 target.addressBits ∧ 0 ≤ size.2 ∧ size.2 ≤ 1 := by
  apply groupInduction
  · intro t single widths size inside
    rw [widthsSingle single] at widths
    rw [sizesSingle single, Option.mem_toList] at inside
    exact leafSizeRange widths address inside
  · intro t types group ih widths
    rw [widthsGroup group] at widths
    rw [sizesGroup group]
    exact ih widths
  · intro _ size inside
    cases inside
  · intro t rest one others widths size inside
    rw [sizesAll, List.mem_append] at inside
    rcases inside with own | later
    · exact one widths.1 size own
    · exact others widths.2 size later

mutual
def widest : Ty → Nat
  | .struct _ _ types | .tuple types => max types.length (widestAll types)
  | _ => 0

def widestAll : List Ty → Nat
  | [] => 0
  | t :: rest => max t.widest (widestAll rest)
end

theorem widestGroup {t : Ty} {types : List Ty} (group : t.parts? = some types) :
    t.widest = max types.length (widestAll types) := by
  cases t <;> cases group <;> simp only [widest]

theorem leavesSucceed (target : Target) :
    (∀ (t : Ty) path, (∃ leaves, t.leaves target path = .ok leaves) ↔ t.unencodable? = none) ∧
    ∀ types, (∀ path names, (∃ leaves, memberLeaves target path names types = .ok leaves) ↔
        firstUnencodable? types = none) ∧
      ∀ names, (∃ leaves, listLeaves target names types = .ok leaves) ↔ firstUnencodable? types = none := by
  have joined {x y : Except Abort (List Leaf)} :
      (∃ leaves, (x >>= fun a => y >>= fun b => .ok (a ++ b)) = .ok leaves) ↔
        (∃ a, x = .ok a) ∧ ∃ b, y = .ok b := by
    constructor
    · rintro ⟨leaves, ok⟩
      obtain ⟨a, first, ok⟩ := okOfBind ok
      obtain ⟨b, second, -⟩ := okOfBind ok
      exact ⟨⟨a, first⟩, ⟨b, second⟩⟩
    · rintro ⟨⟨a, rfl⟩, ⟨b, rfl⟩⟩
      exact ⟨a ++ b, rfl⟩
  apply groupInduction
  · intro t single path
    rw [unencodableSingle single target]
    cases t <;> cases single <;> simp [leaves, leafSize?]
  · intro t types group ih path
    obtain ⟨names, opened⟩ := Position.leavesGroup group target path
    rw [opened, unencodableGroup group]
    exact ih.1 path names
  · simp [memberLeaves, listLeaves, firstUnencodable?]
  · intro t rest one others
    simp only [memberLeaves, listLeaves, firstUnencodableCons]
    refine ⟨fun path names => ?_, fun names => ?_⟩
    · rw [joined, one, others.1]
    · rw [joined, one, others.2]

end Ty

theorem Position.startSucceeds (target : Target) (capacity : Capacity) (names : List String) {offset : Int}
    {types : List Ty} (inside : 0 ≤ offset ∧ offset ≤ capacity.bits)
    (encodable : Ty.firstUnencodable? types = none) :
    ∃ p, start target offset names types capacity = .ok p ∧ p.cells = 1 := by
  obtain ⟨leaves, listed⟩ := (((Ty.leavesSucceed target).2 types).2 names).2 encodable
  refine ⟨⟨capacity, offset, 0, 1, leaves⟩, ?_, rfl⟩
  simp only [start, require, if_pos inside, listed]
  rfl

namespace Emit

variable {α β : Type} {target : Target} {d : Int}

/- From depth `d`, and for any target, the emission completes with a result, code and depth that have `Q`, or it aborts
for a reason in `A`. -/
def Ends (d : Int) (x : Emit α) (A : Abort → Prop) (Q : α → List Instr → Int → Prop) : Prop :=
  ∀ e : Emitter, e.depth = d →
    (∃ a code d', x e = .ok (a, e.write code d') ∧ codeDepth? code d = some d' ∧ Q a code d') ∨
      ∃ why, x e = .error why ∧ A why

namespace Ends

variable {A B : Abort → Prop}

theorem mono {x : Emit α} {Q R : α → List Instr → Int → Prop} (h : Ends d x A Q) (aborts : ∀ why, A why → B why)
    (weaker : ∀ a code d', Q a code d' → R a code d') : Ends d x B R := by
  intro e here
  rcases h e here with ⟨a, code, d', ok, traced, holds⟩ | ⟨why, failed, reason⟩
  · exact .inl ⟨a, code, d', ok, traced, weaker a code d' holds⟩
  · exact .inr ⟨why, failed, aborts why reason⟩

theorem pure {a : α} {Q : α → List Instr → Int → Prop} (h : Q a [] d) : Ends d (Pure.pure a) A Q := by
  intro e here
  refine .inl ⟨a, [], d, ?_, by simp [codeDepth?], h⟩
  rw [← here, e.writeNothing]
  rfl

theorem bind {x : Emit α} {f : α → Emit β} {Q : α → List Instr → Int → Prop} {R : β → List Instr → Int → Prop}
    (first : Ends d x A Q)
    (second : ∀ a code m, Q a code m → Ends m (f a) A fun b code' d' => R b (code ++ code') d') :
    Ends d (x >>= f) A R := by
  intro e here
  rcases first e here with ⟨a, code, m, ok, traced, holds⟩ | ⟨why, failed, reason⟩
  · have next : (x >>= f) e = f a (e.write code m) := by
      change (x e >>= fun p => f p.1 p.2) = _
      rw [ok]
      rfl
    rw [next]
    rcases second a code m holds (e.write code m) rfl with ⟨b, code', d', ok', traced', last⟩ | ended
    · rw [e.writeTwice] at ok'
      exact .inl ⟨b, code ++ code', d', ok', codeDepthAppend traced traced', last⟩
    · exact .inr ended
  · refine .inr ⟨why, ?_, reason⟩
    change (x e >>= fun p => f p.1 p.2) = _
    rw [failed]
    rfl

theorem lift {x : Except Abort α} {Q : α → List Instr → Int → Prop} (ok : ∀ a, x = .ok a → Q a [] d)
    (failed : ∀ why, x = .error why → A why) : Ends d (Emit.lift x) A Q := by
  intro e here
  cases x with
  | ok a =>
    refine .inl ⟨a, [], d, ?_, by simp [codeDepth?], ok a rfl⟩
    rw [← here, e.writeNothing]
    rfl
  | error why => exact .inr ⟨why, rfl, failed why rfl⟩

theorem checkThen {condition : Prop} [Decidable condition] {construct : String} {cause : Abort.Cause}
    {f : Unit → Emit β} {R : β → List Instr → Int → Prop} (rest : condition → Ends d (f ()) A R)
    (failed : ¬condition → A ⟨construct, cause⟩) : Ends d (Emit.check condition construct cause >>= f) A R := by
  refine bind (Q := fun _ code m => condition ∧ code = [] ∧ m = d) ?_ ?_
  · intro e here
    unfold Emit.check
    split
    · rename_i holds
      exact .inl ⟨(), [], d, by rw [← here, e.writeNothing], by simp [codeDepth?], holds, rfl, rfl⟩
    · rename_i fails
      exact .inr ⟨_, rfl, failed fails⟩
  · rintro _ _ _ ⟨holds, rfl, rfl⟩
    exact rest holds

theorem depthThen {f : Int → Emit β} {R : β → List Instr → Int → Prop} (rest : Ends d (f d) A R) :
    Ends d (Emit.depth >>= f) A R := by
  refine bind (Q := fun n code m => n = d ∧ code = [] ∧ m = d) ?_ ?_
  · intro e here
    refine .inl ⟨d, [], d, ?_, by simp [codeDepth?], rfl, rfl, rfl⟩
    rw [Emit.depth, ← here, e.writeNothing]
  · rintro _ _ _ ⟨rfl, rfl, rfl⟩
    exact rest

theorem ensureThen {expected : Int} {construct : String} {f : Unit → Emit β} {R : β → List Instr → Int → Prop}
    (same : d = expected) (rest : Ends d (f ()) A R) : Ends d (Emit.ensureDepth expected construct >>= f) A R := by
  refine bind (Q := fun _ code m => code = [] ∧ m = d) ?_ ?_
  · intro e here
    refine .inl ⟨(), [], d, ?_, by simp [codeDepth?], rfl, rfl⟩
    rw [Emit.ensureDepth, if_pos (here.trans same), ← here, e.writeNothing]
  · rintro _ _ _ ⟨rfl, rfl⟩
    exact rest

theorem shown {ε : Type} {f : Opcode → List Int → List ε} {events : List ε} {x : Emit α} {Q : α → Int → Prop}
    (completes : ∀ target, Completes target d x Q) (shows : Shows f x events) :
    Ends d x A fun a code d' => Q a d' ∧ codeEvents f code = events := by
  intro e here
  obtain ⟨a, code, d', ok, traced, holds⟩ := completes e.target e rfl here
  obtain ⟨code', depth, same, told⟩ := shows e.target e a _ rfl ok
  obtain ⟨rfl, rfl⟩ := Emitter.writeInj same
  exact .inl ⟨a, code, d', ok, traced, holds, told⟩

theorem aborts {x : Emit α} {Q : α → List Instr → Int → Prop} {e : Emitter} {why : Abort} (h : Ends e.depth x A Q)
    (failed : x e = .error why) : A why := by
  rcases h e rfl with ⟨a, code, d', ok, -⟩ | ⟨why', failed', reason⟩
  · rw [failed] at ok
    cases ok
  · rw [failed] at failed'
    cases failed'
    exact reason

theorem completes {x : Emit α} {Q : α → List Instr → Int → Prop} (h : Ends d x A Q) (never : ∀ why, ¬A why) :
    Completes target d x fun a d' => ∃ code, Q a code d' := by
  intro e _ here
  rcases h e here with ⟨a, code, d', ok, traced, holds⟩ | ⟨why, _, reason⟩
  · exact ⟨a, code, d', ok, traced, code, holds⟩
  · exact absurd reason (never why)

end Ends

/- The two reasons for which the codec aborts: a leaf that finds no place when its turn comes, and a struct or tuple
that is wider than any tuple. -/
inductive Stops (p : Position) (widest : Nat) : Abort → Prop where
  | cell {marks : List Bool} {q : Position} {size : Int × Int} {more : List (Int × Int)} {why : Abort}
      (placed : p.Placed marks q) (left : q.sizes = size :: more) (full : q.next = .error why) : Stops p widest why
  | tuple {o : Opcode} {n : Nat} (packs : o = .tuple ∨ o = .untuple) (held : n ≤ widest) (wide : maxTupleSize < n) :
      Stops p widest ⟨o.name, .tupleOperand n⟩

namespace Stops

variable {p q : Position} {w : Nat} {why : Abort}

theorem widen {w' : Nat} (stops : Stops p w why) (wider : w ≤ w') : Stops p w' why := by
  cases stops with
  | cell placed left full => exact .cell placed left full
  | tuple packs held wide => exact .tuple packs (held.trans wider) wide

theorem earlier {marks : List Bool} (stops : Stops q w why) (placed : p.Placed marks q) : Stops p w why := by
  cases stops with
  | cell walked left full => exact .cell (placed.append walked) left full
  | tuple packs held wide => exact .tuple packs held wide

theorem absent {marks : List Bool} (placed : p.Placed marks q) (done : q.done = true)
    (narrow : (w : Int) ≤ maxTupleSize) : ¬Stops p w why := by
  intro stops
  cases stops with
  | cell walked left full =>
    have none := placed.goesOn done walked full
    rw [Position.doneSizes, left] at none
    cases none
  | tuple _ held wide => omega

end Stops

theorem packEnds {o o' : Opcode} {k w : Nat} {after : Int} {p : Position}
    {f : Opcode → List Int → List Event} (packs : o = .tuple ∨ o = .untuple) (held : k ≤ w)
    (shows : Shows f (tupleOp o o' k) [])
    (completes : (k : Int) ≤ maxTupleSize → ∀ target, Completes target d (tupleOp o o' k) fun _ d' => d' = after) :
    Ends d (tupleOp o o' k) (Stops p w) fun _ code d' => d' = after ∧ codeEvents f code = [] := by
  by_cases small : (k : Int) ≤ maxTupleSize
  · exact .shown (completes small) shows
  · unfold tupleOp
    exact .checkThen (fun range => absurd range.2 small) fun _ => .tuple packs held (by omega)

namespace Store

theorem expandEnds {k w : Nat} {p : Position} (held : k ≤ w) (enough : 2 ≤ d) :
    Ends d (expand k) (Stops p w) fun _ code d' => d' = d - 1 + k ∧ codeEvents writes code = [] := by
  unfold expand
  refine .bind (.shown (fun _ => .op rfl enough rfl) (.arranging writesSilent rfl)) ?_
  rintro _ code m ⟨here, quiet⟩
  refine .bind (packEnds (.inr rfl) held (tupleOpShows writesSilent k rfl rfl)
    fun small _ => untupleCompletes (by omega) small (by omega)) ?_
  rintro _ code' m' ⟨spread, quiet'⟩
  have rest : Ends m' (if 2 ≤ k + 1 then reverse (k + 1) 0 else Pure.pure ()) (Stops p w)
      fun _ code d' => d' = m' ∧ codeEvents writes code = [] := by
    split
    · exact .shown (fun _ => reverseCompletes (by omega) le_rfl (by omega)) (reverseShows writesSilent _ _)
    · exact .pure ⟨rfl, rfl⟩
  refine rest.mono (fun _ => id) ?_
  rintro _ code'' d' ⟨same, quiet''⟩
  refine ⟨by omega, ?_⟩
  rw [eventsAppend, eventsAppend, quiet, quiet', quiet'']
  rfl

/- Values of `types` wait under the builder, and their leaves, then `more`, are the next to be placed. -/
structure Ready (target : Target) (types : List Ty) (more : List (Int × Int)) (s : State) (d : Int) : Prop where
  sizes : s.position.sizes = Ty.sizesAll target types ++ more
  pending : (types.length : Int) ≤ s.pending
  depth : s.pending + 1 ≤ d

structure Advances (types : List Ty) (more : List (Int × Int)) (s : State) (d : Int) (s' : State) (code : List Instr)
    (d' : Int) : Prop where
  walks : Walks writes (Ty.singlesAll types) s.position s'.position code
  sizes : s'.position.sizes = more
  pending : s'.pending = s.pending - types.length
  builders : s'.builders - s.builders = s'.position.cells - s.position.cells
  depth : d' = d - types.length + (s'.builders - s.builders)

theorem Advances.grows {types : List Ty} {more : List (Int × Int)} {s s' : State} {code : List Instr} {d' : Int}
    (h : Advances types more s d s' code d') : s.builders ≤ s'.builders := by
  obtain ⟨marks, placed, -⟩ := h.walks
  have cells := placed.cells
  have builders := h.builders
  omega

theorem singleEnds {t : Ty} {more : List (Int × Int)} {s : State} {w : Nat} (single : t.parts? = none)
    (encodable : t.unencodable? = none) (ready : Ready target [t] more s d) :
    Ends d (value t s) (Stops s.position w) fun s' code d' =>
      Advances [t] more s d s' code d' := by
  obtain ⟨size, found⟩ := (Ty.unencodableSingle single target).1 encodable
  have listed := ready.sizes
  simp only [Ty.sizesAll, Ty.sizesSingle single, found, Option.toList_some, List.append_nil, List.singleton_append]
    at listed
  have waiting := ready.pending
  have deep := ready.depth
  simp only [List.length_singleton] at waiting
  rw [valueSingle single]
  refine .bind (.lift (Q := fun p code m => s.position.next = .ok p ∧ code = [] ∧ m = d)
    (fun p next => ⟨next, rfl, rfl⟩) fun why failed => .cell (.nil _) listed failed) ?_
  rintro ⟨opened, q⟩ _ m ⟨next, rfl, rfl⟩
  have broken : Ends m (if opened then breakCell s.pending else Pure.pure ())
      (Stops s.position w) fun _ code d' => d' = m + opened.toInt ∧
        codeEvents writes code = if opened then [.opened] else [] := by
    cases opened with
    | false => exact .pure ⟨by simp, rfl⟩
    | true => exact .shown (fun _ => breakCompletes (by omega) deep) (breakShows _)
  refine .bind broken ?_
  rintro _ code m' ⟨spread, shown⟩
  have grown : 0 ≤ opened.toInt := by cases opened <;> decide
  have storable (there : Target) : Completes there m' (leaf t) fun _ d' => d' = m' - 1 := by
    obtain ⟨size', found'⟩ := (Ty.unencodableSingle single there).1 encodable
    exact storeLeafCompletes found' (by omega)
  refine .bind (.shown storable (storeLeafShows t)) ?_
  rintro _ code' d' ⟨stored, data⟩
  obtain ⟨_, places⟩ := Position.nextPlaces next
  have cells := Position.nextCells next
  refine .pure ⟨?_, ?_, rfl, ?_, ?_⟩
  · simp only [List.nil_append, List.append_nil, Ty.singlesAll, Ty.singlesSingle single]
    exact .leaf next shown data
  · rw [places.sizes] at listed
    exact (List.cons.inj listed).2
  · cases opened <;> simp only [Bool.toInt_false, Bool.toInt_true, Bool.false_eq_true, if_false, if_true] at cells ⊢ <;>
      omega
  · cases opened <;> simp only [Bool.toInt_false, Bool.toInt_true, List.length_singleton, Bool.false_eq_true,
      if_false, if_true] at spread ⊢ <;> omega

theorem valuesEnd (target : Target) :
    (∀ (t : Ty) (more : List (Int × Int)) (s : State) (d : Int), t.unencodable? = none → Ready target [t] more s d →
      Ends d (value t s) (Stops s.position t.widest) fun s' code d' =>
        Advances [t] more s d s' code d') ∧
    ∀ (types : List Ty) (more : List (Int × Int)) (s : State) (d : Int), Ty.firstUnencodable? types = none →
      Ready target types more s d →
        Ends d (values types s) (Stops s.position (Ty.widestAll types)) fun s' code d' =>
          Advances types more s d s' code d' := by
  apply Ty.groupInduction
  · intro t single more s d encodable ready
    exact singleEnds single encodable ready
  · intro t types group ih more s d encodable ready
    rw [Ty.unencodableGroup group] at encodable
    have waiting := ready.pending
    have deep := ready.depth
    have listed := ready.sizes
    simp only [List.length_singleton] at waiting
    simp only [Ty.sizesAll, Ty.sizesGroup group, List.append_nil] at listed
    rw [valueGroup group, Ty.widestGroup group]
    refine .bind (expandEnds (Nat.le_max_left ..) (by omega)) ?_
    rintro _ code m ⟨spread, quiet⟩
    have members : Ready target types more { s with pending := s.pending + (types.length - 1) } m :=
      ⟨listed, by simp only; omega, by simp only; omega⟩
    refine (ih more _ m encodable members).mono (fun _ stops => stops.widen (Nat.le_max_right ..)) ?_
    intro s' code' d' stored
    have pending := stored.pending
    have depth := stored.depth
    simp only at pending depth
    refine ⟨?_, stored.sizes, ?_, stored.builders, ?_⟩
    · simp only [Ty.singlesAll, Ty.singlesGroup group, List.append_nil]
      exact stored.walks.silentBefore quiet
    · simp only [List.length_singleton]
      omega
    · simp only [List.length_singleton]
      omega
  · intro more s d _ ready
    simp only [values]
    exact .pure ⟨.nil, by simpa [Ty.sizesAll] using ready.sizes, by simp, by simp, by simp⟩
  · intro t rest one others more s d encodable ready
    rw [Ty.firstUnencodableCons] at encodable
    have waiting := ready.pending
    have deep := ready.depth
    simp only [List.length_cons] at waiting
    simp only [values, Ty.widestAll]
    have first := one (Ty.sizesAll target rest ++ more) s d encodable.1
      ⟨by simpa [Ty.sizesAll] using ready.sizes, by simp only [List.length_singleton]; omega, deep⟩
    refine .bind (first.mono (fun _ stops => stops.widen (Nat.le_max_left ..)) fun _ _ _ => id) ?_
    intro s' code m stored
    have pending := stored.pending
    have grown := stored.grows
    have depth := stored.depth
    have builders := stored.builders
    simp only [List.length_singleton] at pending depth
    refine (others more s' m encodable.2 ⟨stored.sizes, by omega, by omega⟩).mono ?_ ?_
    · intro why stops
      obtain ⟨marks, placed, -⟩ := stored.walks
      exact (stops.widen (Nat.le_max_right ..)).earlier placed
    · intro s'' code' d' following
      have pending' := following.pending
      have depth' := following.depth
      have builders' := following.builders
      have walks := stored.walks
      simp only [Ty.singlesAll, List.append_nil] at walks
      refine ⟨walks.append following.walks, following.sizes, ?_, by omega, ?_⟩
      · simp only [List.length_cons]
        omega
      · simp only [List.length_cons]
        omega

end Store

theorem storeValuesEnd {types : List Ty} {p : Position} (encodable : Ty.firstUnencodable? types = none)
    (listed : p.sizes = Ty.sizesAll target types) (enough : (types.length : Int) + 1 ≤ d) :
    Ends d (storeValues types p) (Stops p (Ty.widestAll types)) fun q code d' =>
      d' = d - types.length ∧ q.done = true ∧ ∃ marks, p.Placed marks q ∧
        marks.length = (Ty.singlesAll types).length ∧ codeEvents writes code =
          trail (Ty.singlesAll types) marks ++ List.replicate (marks.count true) .folded := by
  unfold storeValues
  refine .depthThen (.checkThen (fun _ => ?_) (absurd enough))
  refine .bind ((Store.valuesEnd target).2 types [] ⟨p, types.length, 1⟩ d encodable
    ⟨by simpa using listed, le_rfl, enough⟩) ?_
  intro s code m stored
  have pending := stored.pending
  have builders := stored.builders
  have depth := stored.depth
  simp only at pending builders depth
  obtain ⟨marks, placed, count, shown⟩ := stored.walks
  have cells := placed.cells
  simp only at cells
  have done : s.position.done = true := Position.doneSizes.2 stored.sizes
  refine .checkThen (fun _ => .checkThen (fun _ => ?_) (absurd (by omega))) (absurd done)
  have folds : (s.builders - 1).toNat = marks.count true := by omega
  rw [folds]
  refine .bind (.shown (fun _ => foldCompletes _ (by omega)) (foldShows _)) ?_
  rintro _ code' m' ⟨folded, closing⟩
  refine .ensureThen (by omega) (.pure ⟨by omega, done, marks, placed, count, ?_⟩)
  rw [List.append_nil, eventsAppend, shown, closing]

namespace Load

theorem groupEnds {k w : Nat} {p : Position} (held : k ≤ w)
    (enough : (k : Int) + 1 ≤ d) : Ends d (group k) (Stops p w) fun _ code d' =>
      d' = d - k + 1 ∧ codeEvents reads code = [] := by
  unfold group
  refine .bind (.shown (fun _ => blockSwapCompletes (by omega) (by decide) enough) (blockSwapShows readsSilent k 1)) ?_
  rintro _ code m ⟨here, quiet⟩
  refine .bind (packEnds (.inl rfl) held (tupleOpShows readsSilent k rfl rfl)
    fun small _ => tupleCompletes (by omega) small (by omega)) ?_
  rintro _ code' m' ⟨packed, quiet'⟩
  have rest : Ends m' swap (Stops p w) fun _ code d' => d' = m' ∧ codeEvents reads code = [] :=
    .shown (fun _ => .op rfl (by omega) (by omega)) (.arranging readsSilent rfl)
  refine rest.mono (fun _ => id) ?_
  rintro _ code'' d' ⟨same, quiet''⟩
  refine ⟨by omega, ?_⟩
  rw [eventsAppend, eventsAppend, quiet, quiet', quiet'']
  rfl

structure Advances (types : List Ty) (more : List (Int × Int)) (p : Position) (d : Int) (q : Position)
    (code : List Instr) (d' : Int) : Prop where
  walks : Walks reads (Ty.singlesAll types) p q code
  sizes : q.sizes = more
  depth : d' = d + types.length

theorem singleEnds {t : Ty} {more : List (Int × Int)} {p : Position} {w : Nat} (single : t.parts? = none)
    (encodable : t.unencodable? = none) (listed : p.sizes = t.sizes target ++ more) (enough : 1 ≤ d) :
    Ends d (value t p) (Stops p w) fun q code d' => Advances [t] more p d q code d' := by
  obtain ⟨size, found⟩ := (Ty.unencodableSingle single target).1 encodable
  simp only [Ty.sizesSingle single, found, Option.toList_some, List.singleton_append] at listed
  rw [valueSingle single]
  refine .bind (.lift (Q := fun q code m => p.next = .ok q ∧ code = [] ∧ m = d)
    (fun q next => ⟨next, rfl, rfl⟩) fun why failed => .cell (.nil _) listed failed) ?_
  rintro ⟨opened, q⟩ _ m ⟨next, rfl, rfl⟩
  have followed : Ends m (if opened then followLink else Pure.pure ()) (Stops p w)
      fun _ code d' => d' = m ∧ codeEvents reads code = if opened then [.opened] else [] := by
    cases opened with
    | false => exact .pure ⟨rfl, rfl⟩
    | true => exact .shown (fun _ => linkCompletes enough) linkShows
  refine .bind followed ?_
  rintro _ code m' ⟨same, shown⟩
  have loadable (there : Target) : Completes there m' (leaf t) fun _ d' => d' = m' + 1 := by
    obtain ⟨size', found'⟩ := (Ty.unencodableSingle single there).1 encodable
    exact loadLeafCompletes found' (by omega)
  refine .bind (.shown loadable (loadLeafShows t)) ?_
  rintro _ code' d' ⟨loaded, data⟩
  obtain ⟨_, places⟩ := Position.nextPlaces next
  refine .pure ⟨?_, ?_, ?_⟩
  · simp only [List.nil_append, List.append_nil, Ty.singlesAll, Ty.singlesSingle single]
    exact .leaf next shown data
  · rw [places.sizes] at listed
    exact (List.cons.inj listed).2
  · simp only [List.length_singleton]
    omega

theorem valuesEnd (target : Target) :
    (∀ (t : Ty) (more : List (Int × Int)) (p : Position) (d : Int), t.unencodable? = none →
      p.sizes = t.sizes target ++ more → 1 ≤ d →
        Ends d (value t p) (Stops p t.widest) fun q code d' => Advances [t] more p d q code d') ∧
    ∀ (types : List Ty) (more : List (Int × Int)) (p : Position) (d : Int), Ty.firstUnencodable? types = none →
      p.sizes = Ty.sizesAll target types ++ more → 1 ≤ d →
        Ends d (values types p) (Stops p (Ty.widestAll types)) fun q code d' =>
          Advances types more p d q code d' := by
  apply Ty.groupInduction
  · intro t single more p d encodable listed enough
    exact singleEnds single encodable listed enough
  · intro t types group ih more p d encodable listed enough
    rw [Ty.unencodableGroup group] at encodable
    rw [Ty.sizesGroup group] at listed
    rw [valueGroup group, Ty.widestGroup group]
    have members := ih more p d encodable listed enough
    refine .bind (members.mono (fun _ stops => stops.widen (Nat.le_max_right ..)) fun _ _ _ => id) ?_
    intro q code m loaded
    have depth := loaded.depth
    refine .bind (groupEnds (Nat.le_max_left ..) (by omega)) ?_
    rintro _ code' d' ⟨grouped, quiet⟩
    refine .pure ⟨?_, loaded.sizes, ?_⟩
    · simp only [Ty.singlesAll, Ty.singlesGroup group, List.append_nil]
      exact loaded.walks.silentAfter quiet
    · simp only [List.length_singleton]
      omega
  · intro more p d _ listed _
    simp only [values]
    exact .pure ⟨.nil, by simpa [Ty.sizesAll] using listed, by simp⟩
  · intro t rest one others more p d encodable listed enough
    rw [Ty.firstUnencodableCons] at encodable
    rw [Ty.sizesAll, List.append_assoc] at listed
    simp only [values, Ty.widestAll]
    have first := one _ p d encodable.1 listed enough
    refine .bind (first.mono (fun _ stops => stops.widen (Nat.le_max_left ..)) fun _ _ _ => id) ?_
    intro q code m loaded
    have depth := loaded.depth
    simp only [List.length_singleton] at depth
    refine (others more q m encodable.2 loaded.sizes (by omega)).mono ?_ ?_
    · intro why stops
      obtain ⟨marks, placed, -⟩ := loaded.walks
      exact (stops.widen (Nat.le_max_right ..)).earlier placed
    · intro q' code' d' following
      have depth' := following.depth
      have walks := loaded.walks
      simp only [Ty.singlesAll, List.append_nil] at walks
      refine ⟨walks.append following.walks, following.sizes, ?_⟩
      simp only [List.length_cons]
      omega

end Load

theorem loadValuesEnd {types : List Ty} {p : Position} (encodable : Ty.firstUnencodable? types = none)
    (listed : p.sizes = Ty.sizesAll target types) (enough : 1 ≤ d) :
    Ends d (loadValues types p) (Stops p (Ty.widestAll types)) fun q code d' =>
      d' = d + types.length ∧ q.done = true ∧ Walks reads (Ty.singlesAll types) p q code := by
  unfold loadValues
  refine .depthThen (.checkThen (fun _ => ?_) (absurd enough))
  refine .bind ((Load.valuesEnd target).2 types [] p d encodable (by simpa using listed) enough) ?_
  intro q code m loaded
  have done : q.done = true := Position.doneSizes.2 loaded.sizes
  refine .checkThen (fun _ => ?_) (absurd done)
  exact .ensureThen loaded.depth (.pure ⟨loaded.depth, done, by simpa using loaded.walks⟩)

theorem storeValuesComplete {types : List Ty} {p : Position} (encodable : Ty.firstUnencodable? types = none)
    (narrow : (Ty.widestAll types : Int) ≤ maxTupleSize) (listed : p.sizes = Ty.sizesAll target types)
    (walk : ∃ marks q, p.Placed marks q ∧ q.done = true) (enough : (types.length : Int) + 1 ≤ d) :
    Completes target d (storeValues types p) fun q d' =>
      d' = d - types.length ∧ q.done = true ∧ ∃ marks, p.Placed marks q := by
  obtain ⟨_, _, walked, last⟩ := walk
  refine ((storeValuesEnd encodable listed enough).completes fun _ => Stops.absent walked last narrow).mono ?_
  rintro q d' ⟨_, after, done, marks, placed, -⟩
  exact ⟨after, done, marks, placed⟩

theorem loadValuesComplete {types : List Ty} {p : Position} (encodable : Ty.firstUnencodable? types = none)
    (narrow : (Ty.widestAll types : Int) ≤ maxTupleSize) (listed : p.sizes = Ty.sizesAll target types)
    (walk : ∃ marks q, p.Placed marks q ∧ q.done = true) (enough : 1 ≤ d) :
    Completes target d (loadValues types p) fun q d' =>
      d' = d + types.length ∧ q.done = true ∧ ∃ marks, p.Placed marks q := by
  obtain ⟨_, _, walked, last⟩ := walk
  refine ((loadValuesEnd encodable listed enough).completes fun _ => Stops.absent walked last narrow).mono ?_
  rintro q d' ⟨_, after, done, marks, placed, -⟩
  exact ⟨after, done, marks, placed⟩

end Emit

end CellChain
