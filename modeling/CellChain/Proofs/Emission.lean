import Mathlib
import CellChain.Code.Record
/-! What an emission writes. A statement about emitted code is made of the code that one emission adds to
the innermost block; it says nothing of an emission that aborts. -/
namespace CellChain

theorem okOfBind {ε α β : Type} {x : Except ε α} {f : α → Except ε β} {b : β} (ok : (x >>= f) = .ok b) :
    ∃ a, x = .ok a ∧ f a = .ok b := by
  cases first : x with
  | error fault => rw [first] at ok; cases ok
  | ok a => rw [first] at ok; exact ⟨a, rfl, ok⟩

instance decidableOk {ε α : Type} {x : Except ε α} {P : α → Prop} [DecidablePred P] :
    Decidable (∃ a, x = .ok a ∧ P a) :=
  have found : (∃ a ∈ x.toOption, P a) ↔ ∃ a, x = .ok a ∧ P a := by cases x <;> simp [Except.toOption]
  decidable_of_iff (∃ a ∈ x.toOption, P a) found

namespace Emitter

def write (e : Emitter) (code : List Instr) (depth : Int) : Emitter :=
  { e with depth, block := { e.block with code := e.block.code ++ code } }

theorem writeNothing (e : Emitter) : e.write [] e.depth = e := by
  simp [write]

theorem writeTwice (e : Emitter) (c c' : List Instr) (d d' : Int) :
    (e.write c d).write c' d' = e.write (c ++ c') d' := by
  simp [write]

theorem writeInj {e : Emitter} {c c' : List Instr} {d d' : Int} (same : e.write c d = e.write c' d') :
    c = c' ∧ d = d' := by
  simp only [write, mk.injEq, Block.mk.injEq, List.append_cancel_left_eq] at same
  exact ⟨same.2.2.1.1, same.2.1⟩

end Emitter

namespace Emit

variable {α β : Type} {target : Target}

/- Whenever `x` emits for `target`, it adds code to the innermost block, and `Q` holds of the depth before,
the result, the code and the depth after. -/
def Writes (target : Target) (x : Emit α) (Q : Int → α → List Instr → Int → Prop) : Prop :=
  ∀ e a e', e.target = target → x e = .ok (a, e') →
    ∃ code depth, e' = e.write code depth ∧ Q e.depth a code depth

def called (arguments results : Int) (x : Emit α) : Emit Unit := do
  startContinuation
  let _ ← x
  callRef arguments results

def arrange (n : Nat) : Emit Unit := if 2 ≤ n then reverse n 0 else pure ()

theorem bindOk {x : Emit α} {f : α → Emit β} {e e' : Emitter} {b : β} (ok : (x >>= f) e = .ok (b, e')) :
    ∃ a middle, x e = .ok (a, middle) ∧ f a middle = .ok (b, e') := by
  obtain ⟨p, first, second⟩ := okOfBind (x := x e) (f := fun p => f p.1 p.2) ok
  exact ⟨p.1, p.2, first, second⟩

theorem callRefOk {arguments results : Int} {e e' : Emitter} {u : Unit}
    (ok : callRef arguments results e = .ok (u, e')) :
    ∃ parent outer, e.outer = parent :: outer ∧ e.depth = e.block.entry - arguments + results ∧
      e' = { e with block := parent, outer }.append (.callRef arguments results e.block.code) := by
  unfold callRef at ok
  cases around : e.outer with
  | nil => simp [around] at ok
  | cons parent outer =>
    simp only [around] at ok
    by_cases few : e.block.entry < arguments
    · simp [few] at ok
    · by_cases balanced : e.depth = e.block.entry - arguments + results
      · rw [if_neg few, if_pos balanced] at ok
        cases ok
        exact ⟨parent, outer, rfl, balanced, rfl⟩
      · simp [few, balanced] at ok

namespace Writes

theorem mono {x : Emit α} {Q R : Int → α → List Instr → Int → Prop} (h : Writes target x Q)
    (weaker : ∀ d a code d', Q d a code d' → R d a code d') : Writes target x R := by
  intro e a e' same ok
  obtain ⟨code, depth, written, holds⟩ := h e a e' same ok
  exact ⟨code, depth, written, weaker _ _ _ _ holds⟩

theorem and {x : Emit α} {Q R : Int → α → List Instr → Int → Prop} (one : Writes target x Q)
    (two : Writes target x R) : Writes target x fun d a code d' => Q d a code d' ∧ R d a code d' := by
  intro e a e' same ok
  obtain ⟨code, depth, rfl, holds⟩ := one e a e' same ok
  obtain ⟨code', depth', again, holds'⟩ := two e a _ same ok
  obtain ⟨rfl, rfl⟩ := Emitter.writeInj again
  exact ⟨code, depth, rfl, holds, holds'⟩

theorem pure {a : α} {Q : Int → α → List Instr → Int → Prop} (h : ∀ d, Q d a [] d) :
    Writes target (Pure.pure a) Q := by
  intro e b e' _ ok
  cases ok
  exact ⟨[], e.depth, e.writeNothing.symm, h e.depth⟩

theorem bind {x : Emit α} {f : α → Emit β} {Q : Int → α → List Instr → Int → Prop}
    {R : Int → β → List Instr → Int → Prop} (first : Writes target x Q)
    (second : ∀ d a code m, Q d a code m →
      Writes target (f a) fun before b code' d' => before = m → R d b (code ++ code') d') :
    Writes target (x >>= f) R := by
  intro e b e' same ok
  obtain ⟨a, middle, one, two⟩ := bindOk ok
  obtain ⟨code, m, rfl, holds⟩ := first e a middle same one
  obtain ⟨code', d', rfl, last⟩ := second _ _ _ _ holds (e.write code m) b e' same two
  exact ⟨code ++ code', d', e.writeTwice .., last rfl⟩

theorem instr {i : Instr} {Q : Int → Unit → List Instr → Int → Prop}
    (h : ∀ d pops pushes, i.effect? = some (pops, pushes) → pops ≤ d → Q d () [i] (d + (pushes - pops))) :
    Writes target (Emit.instr i) Q := by
  intro e a e' _ ok
  unfold Emit.instr at ok
  cases effect : i.effect? with
  | none => simp [effect] at ok
  | some pair =>
    obtain ⟨pops, pushes⟩ := pair
    simp only [effect] at ok
    split at ok
    · cases ok
    · rename_i enough
      cases ok
      exact ⟨[i], _, rfl, h _ _ _ effect (by omega)⟩

theorem op {o : Opcode} {operands : List Int} {Q : Int → Unit → List Instr → Int → Prop}
    (h : ∀ d d', Q d () [.simple o operands] d') : Writes target (Emit.op o operands) Q :=
  instr fun d _ _ _ _ => h d _

theorem opThen {o : Opcode} {operands : List Int} {f : Unit → Emit β} {Q : Int → β → List Instr → Int → Prop}
    (h : Writes target (f ()) fun _ b code d' => ∀ d, Q d b (.simple o operands :: code) d') :
    Writes target (Emit.op o operands >>= f) Q := by
  refine bind (Q := fun _ _ code _ => code = [.simple o operands]) (op fun _ _ => rfl) ?_
  rintro d _ _ m rfl
  exact h.mono fun _ b code d' holds _ => holds d

theorem pushSmall (n : Int) : Writes target (Emit.pushSmall n) fun d _ code d' =>
    code = [.pushInt (BitVec.ofInt 256 n)] ∧ d' = d + 1 := by
  change Writes target (Emit.instr (.pushInt _)) _
  refine instr fun d pops pushes effect _ => ?_
  cases effect
  exact ⟨rfl, rfl⟩

theorem check {condition : Prop} [Decidable condition] {construct : String} {cause : Abort.Cause}
    {Q : Int → Unit → List Instr → Int → Prop} (h : condition → ∀ d, Q d () [] d) :
    Writes target (Emit.check condition construct cause) Q := by
  intro e a e' _ ok
  unfold Emit.check at ok
  split at ok
  · cases ok
    exact ⟨[], e.depth, e.writeNothing.symm, h ‹_› e.depth⟩
  · cases ok

theorem ensureDepth {expected : Int} {construct : String} {Q : Int → Unit → List Instr → Int → Prop}
    (h : Q expected () [] expected) : Writes target (Emit.ensureDepth expected construct) Q := by
  intro e a e' _ ok
  unfold Emit.ensureDepth at ok
  split at ok
  · rename_i same
    cases ok
    exact ⟨[], e.depth, e.writeNothing.symm, by rw [same]; exact h⟩
  · cases ok

theorem lift {x : Except Abort α} {Q : Int → α → List Instr → Int → Prop}
    (h : ∀ a, x = .ok a → ∀ d, Q d a [] d) : Writes target (Emit.lift x) Q := by
  intro e a e' _ ok
  cases x with
  | error fault => cases ok
  | ok b =>
    cases ok
    exact ⟨[], e.depth, e.writeNothing.symm, h _ rfl e.depth⟩

theorem depth {Q : Int → Int → List Instr → Int → Prop} (h : ∀ d, Q d d [] d) :
    Writes target Emit.depth Q := by
  intro e a e' _ ok
  cases ok
  exact ⟨[], e.depth, e.writeNothing.symm, h e.depth⟩

theorem readTarget {Q : Int → Target → List Instr → Int → Prop} (h : ∀ d, Q d target [] d) :
    Writes target Emit.target Q := by
  intro e a e' same ok
  cases ok
  exact ⟨[], e.depth, e.writeNothing.symm, by rw [same]; exact h e.depth⟩

theorem abort {construct : String} {cause : Abort.Cause} {Q : Int → α → List Instr → Int → Prop} :
    Writes target (Emit.abort construct cause) Q := by
  intro e a e' _ ok
  cases ok

theorem called {x : Emit α} {arguments results : Int} {Q : Int → α → List Instr → Int → Prop}
    {R : Int → Unit → List Instr → Int → Prop} (body : Writes target x Q)
    (h : ∀ d a code d', d' = d - arguments + results → Q d a code d' → R d () [.callRef arguments results code] d') :
    Writes target (called arguments results x) R := by
  intro e u e' same ok
  obtain ⟨_, opened, start, rest⟩ := bindOk ok
  cases start
  obtain ⟨a, filled, inside, closed⟩ := bindOk rest
  obtain ⟨code, d', rfl, holds⟩ := body ⟨e.target, e.depth, ⟨[], e.depth⟩, e.block :: e.outer⟩ a filled same inside
  obtain ⟨parent, outer, around, balanced, rfl⟩ := callRefOk closed
  cases around
  exact ⟨_, _, rfl, h _ _ _ _ balanced holds⟩

end Writes

end Emit

end CellChain
