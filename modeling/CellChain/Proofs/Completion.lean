import Mathlib
import CellChain.Proofs.Groups
import CellChain.Proofs.Placement
/-! Emission that does not abort. An operation that finds enough values in the model completes, whatever was
emitted before it, and the code that it adds takes the modelled depth from where it was to where it is. -/
namespace CellChain

/- The depth after code, by the declared effect of each instruction; none where one lacks a value. The body of a
call works on the same values, and must do what the call declares. -/
mutual
def Instr.depthAfter? : Instr → Int → Option Int
  | .callRef arguments results body, d =>
    match codeDepth? body d with
    | none => none
    | some after => if arguments ≤ d ∧ after = d - arguments + results then some after else none
  | i, d =>
    match i.effect? with
    | none => none
    | some (pops, pushes) => if d < pops then none else some (d + (pushes - pops))

def codeDepth? : List Instr → Int → Option Int
  | [], d => some d
  | i :: rest, d =>
    match i.depthAfter? d with
    | none => none
    | some after => codeDepth? rest after
end

theorem codeDepthAppend {a b : List Instr} {d m d' : Int} (first : codeDepth? a d = some m)
    (second : codeDepth? b m = some d') : codeDepth? (a ++ b) d = some d' := by
  induction a generalizing d with
  | nil =>
    simp only [codeDepth?, Option.some.injEq] at first
    simpa [first] using second
  | cons i rest ih =>
    simp only [List.cons_append, codeDepth?] at first ⊢
    cases one : i.depthAfter? d with
    | none => simp [one] at first
    | some after =>
      simp only [one] at first ⊢
      exact ih first

theorem Instr.depthOfEffect {i : Instr} {d pops pushes : Int} (effect : i.effect? = some (pops, pushes))
    (enough : pops ≤ d) : i.depthAfter? d = some (d + (pushes - pops)) := by
  have few : ¬d < pops := by omega
  cases i with
  | callRef arguments results body => simp [Instr.effect?] at effect
  | pushInt x => simp only [depthAfter?, effect, if_neg few]
  | simple op operands => simp only [depthAfter?, effect, if_neg few]

namespace Emit

variable {α β : Type} {target : Target} {d : Int}

def Completes (target : Target) (d : Int) (x : Emit α) (Q : α → Int → Prop) : Prop :=
  ∀ e : Emitter, e.target = target → e.depth = d → ∃ a code d',
    x e = .ok (a, e.write code d') ∧ codeDepth? code d = some d' ∧ Q a d'

namespace Completes

theorem mono {x : Emit α} {Q R : α → Int → Prop} (h : Completes target d x Q) (weaker : ∀ a d', Q a d' → R a d') :
    Completes target d x R := by
  intro e same here
  obtain ⟨a, code, d', ok, traced, holds⟩ := h e same here
  exact ⟨a, code, d', ok, traced, weaker a d' holds⟩

theorem pure {a : α} {Q : α → Int → Prop} (h : Q a d) : Completes target d (Pure.pure a) Q := by
  intro e _ here
  refine ⟨a, [], d, ?_, by simp [codeDepth?], h⟩
  rw [← here, e.writeNothing]
  rfl

theorem bind {x : Emit α} {f : α → Emit β} {Q : α → Int → Prop} {R : β → Int → Prop} (first : Completes target d x Q)
    (second : ∀ a m, Q a m → Completes target m (f a) R) : Completes target d (x >>= f) R := by
  intro e same here
  obtain ⟨a, code, m, ok, traced, holds⟩ := first e same here
  obtain ⟨b, code', d', ok', traced', last⟩ := second a m holds (e.write code m) same rfl
  refine ⟨b, code ++ code', d', ?_, codeDepthAppend traced traced', last⟩
  rw [← e.writeTwice code code' m d', ← ok']
  change (x e >>= fun p => f p.1 p.2) = _
  rw [ok]
  rfl

theorem andThen {x : Emit α} {f : α → Emit β} {m : Int} {R : β → Int → Prop}
    (first : Completes target d x fun _ d' => d' = m) (second : ∀ a, Completes target m (f a) R) :
    Completes target d (x >>= f) R := by
  refine bind first ?_
  intro a _ here
  rw [here]
  exact second a

theorem instr {i : Instr} {pops pushes : Int} (effect : i.effect? = some (pops, pushes)) (enough : pops ≤ d) :
    Completes target d (Emit.instr i) fun _ d' => d' = d + (pushes - pops) := by
  intro e _ here
  refine ⟨(), [i], d + (pushes - pops), ?_, ?_, rfl⟩
  · have few : ¬d < pops := by omega
    simp only [Emit.instr, effect, here, if_neg few]
    rfl
  · simp only [codeDepth?, Instr.depthOfEffect effect enough]

theorem op {o : Opcode} {operands : List Int} {pops pushes after : Int}
    (effect : Instr.effect? (.simple o operands) = some (pops, pushes)) (enough : pops ≤ d)
    (moves : d + (pushes - pops) = after) : Completes target d (Emit.op o operands) fun _ d' => d' = after := by
  rw [← moves]
  exact instr effect enough

theorem opThen {o : Opcode} {operands : List Int} {pops pushes : Int} {f : Unit → Emit β} {R : β → Int → Prop}
    (effect : Instr.effect? (.simple o operands) = some (pops, pushes)) (enough : pops ≤ d)
    (rest : Completes target (d + (pushes - pops)) (f ()) R) : Completes target d (Emit.op o operands >>= f) R :=
  andThen (op effect enough rfl) fun _ => rest

theorem pushSmall {n : Int} (low : 0 ≤ d) : Completes target d (Emit.pushSmall n) fun _ d' => d' = d + 1 := by
  change Completes target d (Emit.instr (.pushInt _)) fun _ d' => d' = d + (1 - 0)
  exact instr rfl low

theorem pushThen {n : Int} {f : Unit → Emit β} {R : β → Int → Prop} (rest : Completes target (d + 1) (f ()) R)
    (low : 0 ≤ d) : Completes target d (Emit.pushSmall n >>= f) R :=
  andThen (pushSmall low) fun _ => rest

theorem check {condition : Prop} [Decidable condition] {construct : String} {cause : Abort.Cause} (h : condition) :
    Completes target d (Emit.check condition construct cause) fun _ d' => d' = d := by
  intro e _ here
  refine ⟨(), [], d, ?_, by simp [codeDepth?], rfl⟩
  rw [Emit.check, if_pos h, ← here, e.writeNothing]

theorem checkThen {condition : Prop} [Decidable condition] {construct : String} {cause : Abort.Cause}
    {f : Unit → Emit β} {R : β → Int → Prop} (h : condition) (rest : Completes target d (f ()) R) :
    Completes target d (Emit.check condition construct cause >>= f) R :=
  andThen (check h) fun _ => rest

theorem ensureDepth {construct : String} {expected : Int} (same : d = expected) :
    Completes target d (Emit.ensureDepth expected construct) fun _ d' => d' = expected := by
  intro e _ here
  refine ⟨(), [], d, ?_, by simp [codeDepth?], same⟩
  rw [Emit.ensureDepth, if_pos (here.trans same), ← here, e.writeNothing]

theorem lift {x : Except Abort α} {a : α} {Q : α → Int → Prop} (ok : x = .ok a) (h : Q a d) :
    Completes target d (Emit.lift x) Q := by
  intro e _ here
  refine ⟨a, [], d, ?_, by simp [codeDepth?], h⟩
  rw [Emit.lift, ok, ← here, e.writeNothing]
  rfl

theorem liftThen {x : Except Abort α} {a : α} {f : α → Emit β} {R : β → Int → Prop} (ok : x = .ok a)
    (rest : Completes target d (f a) R) : Completes target d (Emit.lift x >>= f) R := by
  refine bind (lift (Q := fun b m => b = a ∧ m = d) ok ⟨rfl, rfl⟩) ?_
  intro b m found
  rw [found.1, found.2]
  exact rest

theorem depthThen {f : Int → Emit β} {R : β → Int → Prop} (rest : Completes target d (f d) R) :
    Completes target d (Emit.depth >>= f) R := by
  refine bind (Q := fun b m => b = d ∧ m = d) ?_ ?_
  · intro e _ here
    refine ⟨d, [], d, ?_, by simp [codeDepth?], rfl, rfl⟩
    rw [Emit.depth, ← here, e.writeNothing]
  · intro b m found
    rw [found.1, found.2]
    exact rest

theorem targetThen {f : Target → Emit β} {R : β → Int → Prop} (rest : Completes target d (f target) R) :
    Completes target d (Emit.target >>= f) R := by
  refine bind (Q := fun b m => b = target ∧ m = d) ?_ ?_
  · intro e same here
    refine ⟨target, [], d, ?_, by simp [codeDepth?], rfl, rfl⟩
    rw [Emit.target, same, ← here, e.writeNothing]
  · intro b m found
    rw [found.1, found.2]
    exact rest

theorem called {x : Emit α} {arguments results : Int} (enough : arguments ≤ d)
    (body : Completes target d x fun _ d' => d' = d - arguments + results) :
    Completes target d (Emit.called arguments results x) fun _ d' => d' = d - arguments + results := by
  intro e same here
  obtain ⟨a, code, d', ok, traced, rfl⟩ := body ⟨e.target, e.depth, ⟨[], e.depth⟩, e.block :: e.outer⟩ same here
  refine ⟨(), [.callRef arguments results code], d - arguments + results, ?_, ?_, rfl⟩
  · have opened : startContinuation e = .ok ((), ⟨e.target, e.depth, ⟨[], e.depth⟩, e.block :: e.outer⟩) := rfl
    change (startContinuation e >>= fun p => (x >>= fun _ => callRef arguments results) p.2) = _
    rw [opened]
    change (x _ >>= fun p => callRef arguments results p.2) = _
    rw [ok]
    have few : ¬d < arguments := by omega
    simp only [Bind.bind, Except.bind, callRef, Emitter.write, here, if_neg few, if_true, List.nil_append]
    rfl
  · simp only [codeDepth?, Instr.depthAfter?, traced, enough, and_self, if_true]

theorem known {x : Emit α} {Q : α → Int → Prop} {R : Int → α → List Instr → Int → Prop}
    (completes : Completes target d x Q) (writes : Writes target x R) {e : Emitter} (same : e.target = target)
    (here : e.depth = d) : ∃ a code d', x e = .ok (a, e.write code d') ∧ Q a d' ∧ R e.depth a code d' := by
  obtain ⟨a, code, d', ok, -, holds⟩ := completes e same here
  obtain ⟨code', d'', again, told⟩ := writes e a _ same ok
  obtain ⟨rfl, rfl⟩ := Emitter.writeInj again
  exact ⟨a, code, d', ok, holds, told⟩

end Completes

theorem reverseCompletes {n i : Int} (two : 2 ≤ n) (low : 0 ≤ i) (enough : n + i ≤ d) :
    Completes target d (reverse n i) fun _ d' => d' = d := by
  unfold reverse
  refine .checkThen two ?_
  split
  · have effect : Instr.effect? (.simple .reverse [n, i]) = some (n + i, n + i) := rfl
    exact .op effect enough (by omega)
  · have effect : Instr.effect? (.simple .revX [n, i]) = some (n + i + 2, n + i) := rfl
    exact .pushThen (.pushThen (.op effect (by omega) (by omega)) (by omega)) (by omega)

theorem blockSwapCompletes {i j : Int} (first : 0 ≤ i) (second : 0 ≤ j) (enough : i + j ≤ d) :
    Completes target d (blockSwap i j) fun _ d' => d' = d := by
  unfold blockSwap
  split
  · exact .pure rfl
  · split
    · exact .op rfl (by omega) (by omega)
    · split
      · have effect : Instr.effect? (.simple .blkSwap [i, j]) = some (i + j, i + j) := rfl
        exact .op effect enough (by omega)
      · have effect : Instr.effect? (.simple .blkSwX [i, j]) = some (i + j + 2, i + j) := rfl
        exact .pushThen (.pushThen (.op effect (by omega) (by omega)) (by omega)) (by omega)

theorem tupleOpCompletes {carried stacked : Opcode} {k pops pushes : Int} (low : 0 ≤ k) (high : k ≤ maxTupleSize)
    (short : Instr.effect? (.simple carried [k]) = some (pops, pushes))
    (long : Instr.effect? (.simple stacked [k]) = some (pops + 1, pushes)) (some : 0 ≤ d) (enough : pops ≤ d) :
    Completes target d (tupleOp carried stacked k) fun _ d' => d' = d - pops + pushes := by
  unfold tupleOp
  refine .checkThen ⟨low, high⟩ ?_
  split
  · exact .op short enough (by omega)
  · exact .pushThen (.op long (by omega) (by omega)) some

theorem tupleCompletes {n : Int} (low : 0 ≤ n) (high : n ≤ maxTupleSize) (enough : n ≤ d) :
    Completes target d (tuple n) fun _ d' => d' = d - n + 1 :=
  tupleOpCompletes low high rfl rfl (by omega) enough

theorem untupleCompletes {n : Int} (low : 0 ≤ n) (high : n ≤ maxTupleSize) (enough : 1 ≤ d) :
    Completes target d (untuple n) fun _ d' => d' = d - 1 + n :=
  tupleOpCompletes low high rfl rfl (by omega) enough

theorem arrangeCompletes {n : Nat} (enough : n ≤ d) : Completes target d (arrange n) fun _ d' => d' = d := by
  unfold arrange
  split
  · exact reverseCompletes (by omega) le_rfl (by omega)
  · exact .pure rfl

theorem breakCompletes {pending : Int} (low : 0 ≤ pending) (enough : pending + 1 ≤ d) :
    Completes target d (Store.breakCell pending) fun _ d' => d' = d + 1 := by
  refine .bind (blockSwapCompletes low (by decide) enough) ?_
  intro _ m same
  exact .op rfl (by omega) (by omega)

theorem linkCompletes (enough : 1 ≤ d) : Completes target d Load.followLink fun _ d' => d' = d :=
  .opThen rfl enough (.op rfl (by omega) (by omega))

theorem foldCompletes (n : Nat) (enough : (n : Int) + 1 ≤ d) :
    Completes target d (Store.fold n) fun _ d' => d' = d - n := by
  induction n generalizing d with
  | zero => exact .pure (by omega)
  | succ n ih =>
    refine .opThen rfl (by omega) ((ih (by omega)).mono ?_)
    intro _ d' after
    omega

theorem storeLeafCompletes {t : Ty} {size : Int × Int} (found : t.leafSize? target = some size) (enough : 2 ≤ d) :
    Completes target d (Store.leaf t) fun _ d' => d' = d - 1 := by
  cases t with
  | integer signed bits => cases signed <;> exact .op rfl enough (by omega)
  | bool | mapping | bytes | cell | address => exact .op rfl enough (by omega)
  | array element =>
    exact .opThen rfl enough (.opThen rfl (by omega) (.opThen rfl (by omega) (.opThen rfl (by omega)
      (.opThen rfl (by omega) (.op rfl (by omega) (by omega))))))
  | struct | named | tuple | other => simp [Ty.leafSize?] at found

theorem loadLeafCompletes {t : Ty} {size : Int × Int} (found : t.leafSize? target = some size) (enough : 1 ≤ d) :
    Completes target d (Load.leaf t) fun _ d' => d' = d + 1 := by
  cases t with
  | integer signed bits => cases signed <;> exact .op rfl enough (by omega)
  | bool | mapping | bytes | cell => exact .op rfl enough (by omega)
  | address => exact .targetThen (.op rfl enough (by omega))
  | array element =>
    exact .opThen rfl enough (.opThen rfl (by omega) (.opThen rfl (by omega) (.opThen rfl (by omega)
      (.op rfl (by omega) (by omega)))))
  | struct | named | tuple | other => simp [Ty.leafSize?] at found

end Emit

end CellChain
