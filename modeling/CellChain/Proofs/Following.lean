import Mathlib
import CellChain.Proofs.Outcomes
import CellChain.Proofs.Reading
/-! Completed runs and the links they follow. A statement about a run that completes tells the stack it ends with
together with the slices from which it went on to a referenced cell, in order. -/
namespace CellChain.Machine

def sliceOnTop (m : Machine) : List Slice :=
  match m.stack with
  | .slice s :: _ => [s]
  | _ => []

/- The slices from which a run follows a link to the next cell, each as it stands then. -/
mutual
def followsStep : Instr → Machine → List Slice
  | .pushInt _, _ => []
  | .simple op _, m => if op = .ldRefRToS then m.sliceOnTop else []
  | .callRef _ _ body, m => follows body m

def follows : List Instr → Machine → List Slice
  | [], _ => []
  | i :: rest, m =>
    followsStep i m ++
      match run [i] m with
      | .ok _ m' => follows rest m'
      | .error _ _ => []
end

theorem followsAppend (a b : List Instr) (m : Machine) :
    follows (a ++ b) m = follows a m ++
      match run a m with
      | .ok _ m' => follows b m'
      | .error _ _ => [] := by
  induction a generalizing m with
  | nil => simp [follows]
  | cons i rest ih =>
    have split : run (i :: rest) m = (run [i] >>= fun _ => run rest) m := congrFun (runAppend [i] rest) m
    rw [List.cons_append, follows, follows, List.append_assoc]
    cases one : run [i] m with
    | ok u m' => simp only [split, bindOfOk one, ih]
    | error h m' => simp only [split, bindOfError one, List.append_nil]

def Quiet (code : List Instr) : Prop := ∀ m, follows code m = []

theorem followsOne (i : Instr) (m : Machine) : follows [i] m = followsStep i m := by
  rw [follows]
  split <;> simp [follows]

namespace Quiet

theorem nil : Quiet [] := fun _ => by rw [follows]

theorem append {a b : List Instr} (first : Quiet a) (second : Quiet b) : Quiet (a ++ b) := by
  intro m
  rw [followsAppend, first m, List.nil_append]
  split
  · exact second _
  · rfl

theorem one {o : Opcode} (other : o ≠ .ldRefRToS) (operands : List Int) : Quiet [.simple o operands] := by
  intro m
  rw [followsOne, followsStep, if_neg other]

theorem push (x : Word) : Quiet [.pushInt x] := by
  intro m
  rw [followsOne, followsStep]

theorem pushed {o : Opcode} (other : o ≠ .ldRefRToS) (x : Word) (operands : List Int) :
    Quiet [.pushInt x, .simple o operands] :=
  (push x).append (one other operands)

end Quiet

def Completing (limits : Capacity) (code : List Instr) (before : List Value)
    (P : List Slice → List Value → Prop) : Prop :=
  ∀ root n m, run code ⟨before, root, limits, n⟩ = .ok () m →
    ∃ after n', m = ⟨after, root, limits, n'⟩ ∧ P (follows code ⟨before, root, limits, n⟩) after

namespace Completing

variable {limits : Capacity} {a b code : List Instr} {s s' rest : List Value} {P Q : List Slice → List Value → Prop}

theorem mono (h : Completing limits code s P) (weaker : ∀ links after, P links after → Q links after) :
    Completing limits code s Q := by
  intro root n m done
  obtain ⟨after, n', same, holds⟩ := h root n m done
  exact ⟨after, n', same, weaker _ _ holds⟩

theorem append (first : Completing limits a s P)
    (second : ∀ links after, P links after → Completing limits b after fun more last => Q (links ++ more) last) :
    Completing limits (a ++ b) s Q := by
  intro root n m done
  rw [runAppend] at done
  cases one : run a ⟨s, root, limits, n⟩ with
  | error h middle =>
    rw [bindOfError one] at done
    cases done
  | ok u middle =>
    rw [bindOfOk one] at done
    obtain ⟨after, n', rfl, holds⟩ := first root n middle one
    obtain ⟨last, n'', same, holds⟩ := second _ _ holds root n' m done
    refine ⟨last, n'', same, ?_⟩
    rw [followsAppend, one]
    exact holds

theorem ofLeads (quiet : Quiet code) (leads : Leads limits code s s') (h : P [] s') : Completing limits code s P := by
  intro root n m done
  obtain ⟨n', ends⟩ := leads root n
  rw [ends] at done
  cases done
  exact ⟨s', n', rfl, by rw [quiet]; exact h⟩

theorem one {o : Opcode} {operands : List Int}
    (h : ∀ root n m, simple o operands ⟨s, root, limits, n⟩ = .ok () m →
      ∃ after, m = ⟨after, root, limits, n⟩ ∧ P (follows [.simple o operands] ⟨s, root, limits, n⟩) after) :
    Completing limits [.simple o operands] s P := by
  intro root n m done
  cases ran : simple o operands ⟨s, root, limits, n + 1⟩ with
  | error e m' =>
    have bad : step (.simple o operands) ⟨s, root, limits, n + 1⟩ = .error e m' := by rw [step, ran]
    rw [runConsError bad] at done
    cases done
  | ok u m' =>
    have good : step (.simple o operands) ⟨s, root, limits, n + 1⟩ = .ok () m' := by rw [step, ran]
    rw [runConsOk good, runNil] at done
    cases done
    obtain ⟨after, rfl, holds⟩ := h root (n + 1) _ ran
    refine ⟨after, n + 1, rfl, ?_⟩
    rw [followsOne] at holds ⊢
    exact holds

theorem load {o : Opcode} {operands : List Int} {read : Slice → Option (Value × Slice)} {t : Slice}
    (opens : simple o operands = Machine.load read) (other : o ≠ .ldRefRToS)
    (h : ∀ v t', read t = some (v, t') → P [] (.slice t' :: v :: rest)) :
    Completing limits [.simple o operands] (.slice t :: rest) P := by
  apply one
  intro root n m done
  rw [opens, Machine.load, bindOfOk (popSliceOk ..)] at done
  rw [Quiet.one other]
  cases found : read t with
  | none =>
    rw [found] at done
    cases done
  | some pair =>
    rw [found] at done
    cases done
    exact ⟨_, rfl, h _ _ found⟩

theorem link {operands : List Int} {t : Slice}
    (h : ∀ c t', t.ref? = some (c, t') → P [t] (.slice (.ofCell c) :: .slice t' :: rest)) :
    Completing limits [.simple .ldRefRToS operands] (.slice t :: rest) P := by
  apply one
  intro root n m done
  simp only [simple] at done
  rw [bindOfOk (popSliceOk ..)] at done
  have traced : follows [.simple .ldRefRToS operands] ⟨.slice t :: rest, root, limits, n⟩ = [t] := by
    rw [followsOne, followsStep, if_pos rfl, sliceOnTop]
  rw [traced]
  cases found : t.ref? with
  | none =>
    rw [found] at done
    cases done
  | some pair =>
    rw [found] at done
    cases done
    exact ⟨_, rfl, h _ _ found⟩

theorem endSlice {operands : List Int} {t : Slice} (h : t.unread = .empty → P [] rest) :
    Completing limits [.simple .endS operands] (.slice t :: rest) P := by
  apply one
  intro root n m done
  simp only [simple] at done
  rw [bindOfOk (popSliceOk ..)] at done
  rw [Quiet.one (by decide)]
  split at done
  · rename_i none
    cases done
    refine ⟨_, rfl, h ?_⟩
    simp only [Slice.isEmpty, Bool.and_eq_true, List.isEmpty_iff] at none
    simp only [Slice.unread, none]
    rfl
  · cases done

end Completing

end CellChain.Machine
