import Mathlib
import CellChain.Proofs.Emission
import CellChain.Proofs.Execution
/-! What running code comes to. An instruction that takes operands from the stack takes none above 255, while
the emitter lets larger counts through. So each statement about emitted code has two sides: with operands that
can be taken the code leads from one stack to another, and otherwise it trips over the first that cannot. -/
namespace CellChain

def Halt.isOperand : Halt → Bool
  | .fault .invalidOpcode _ => true
  | .fault .rangeCheck (some (.simple op _)) => op.stackOperands
  | _ => false

mutual
def Instr.overStack : Instr → List Int
  | .pushInt _ => []
  | .simple op operands => if op.stackOperands then operands else []
  | .callRef _ _ body => operandsOf body

def operandsOf : List Instr → List Int
  | [] => []
  | i :: rest => i.overStack ++ operandsOf rest
end

@[simp] theorem operandsAppend (a b : List Instr) : operandsOf (a ++ b) = operandsOf a ++ operandsOf b := by
  induction a with
  | nil => simp [operandsOf]
  | cons i rest ih => simp [operandsOf, ih]

def operandLimit : Int := 255

def Within (code : List Instr) : Prop := ∀ n ∈ operandsOf code, n ≤ operandLimit

instance (code : List Instr) : Decidable (Within code) := by unfold Within; infer_instance

theorem withinAppend {a b : List Instr} : Within (a ++ b) ↔ Within a ∧ Within b := by
  simp only [Within, operandsAppend, List.mem_append]
  constructor
  · intro h
    exact ⟨fun n mem => h n (.inl mem), fun n mem => h n (.inr mem)⟩
  · rintro ⟨first, second⟩ n (mem | mem)
    · exact first n mem
    · exact second n mem

def WordSized (code : List Instr) : Prop := ∀ n ∈ operandsOf code, n < 2 ^ 256

instance (code : List Instr) : Decidable (WordSized code) := by unfold WordSized; infer_instance

theorem WordSized.ofAppend {a b : List Instr} (h : WordSized (a ++ b)) : WordSized a ∧ WordSized b := by
  simp only [WordSized, operandsAppend, List.mem_append] at h
  exact ⟨fun n inside => h n (.inl inside), fun n inside => h n (.inr inside)⟩

/- Whether some operand cannot be taken, though a word has room for all. -/
def Exceeds (code : List Instr) : Prop := (∃ n ∈ operandsOf code, operandLimit < n) ∧ WordSized code

theorem Exceeds.ofAppend {a b : List Instr} (h : Exceeds (a ++ b)) : Exceeds a ∨ Within a ∧ Exceeds b := by
  simp only [Exceeds, operandsAppend, List.mem_append] at h
  obtain ⟨⟨n, mem, large⟩, room⟩ := h
  by_cases small : Within a
  · refine .inr ⟨small, ⟨n, ?_, large⟩, room.ofAppend.2⟩
    rcases mem with mem | mem
    · have fits := small n mem
      omega
    · exact mem
  · simp only [Within, not_forall, not_le] at small
    obtain ⟨k, inside, over255⟩ := small
    exact .inl ⟨⟨k, inside, over255⟩, room.ofAppend.1⟩

namespace Machine

def Leads (limits : Capacity) (code : List Instr) (before after : List Value) : Prop :=
  ∀ root n, ∃ n', run code ⟨before, root, limits, n⟩ = .ok () ⟨after, root, limits, n'⟩

def Trips (limits : Capacity) (code : List Instr) (before : List Value) : Prop :=
  ∀ root n, ∃ h m, run code ⟨before, root, limits, n⟩ = .error h m ∧ h.isOperand = true

structure Settles (limits : Capacity) (code : List Instr) (before after : List Value) : Prop where
  leads : Within code → Leads limits code before after
  trips : Exceeds code → Trips limits code before

variable {limits : Capacity} {a b : List Instr} {s s' s'' : List Value}

theorem Leads.nil (limits : Capacity) (s : List Value) : Leads limits [] s s :=
  fun _ n => ⟨n, runNil _⟩

theorem Leads.append (first : Leads limits a s s') (second : Leads limits b s' s'') :
    Leads limits (a ++ b) s s'' := by
  intro root n
  obtain ⟨k, one⟩ := first root n
  obtain ⟨l, two⟩ := second root k
  exact ⟨l, by rw [runAppend, bindOfOk one, two]⟩

theorem Leads.one {op : Opcode} {operands : List Int}
    (h : ∀ root n, simple op operands ⟨s, root, limits, n⟩ = .ok () ⟨s', root, limits, n⟩) :
    Leads limits [.simple op operands] s s' := by
  intro root n
  have done : step (.simple op operands) ⟨s, root, limits, n + 1⟩ = .ok () ⟨s', root, limits, n + 1⟩ := by
    rw [step]
    exact h root (n + 1)
  exact ⟨n + 1, by rw [runConsOk done, runNil]⟩

theorem Leads.cons {op : Opcode} {operands : List Int} (middle : List Value)
    (first : ∀ root n, simple op operands ⟨s, root, limits, n⟩ = .ok () ⟨middle, root, limits, n⟩)
    (rest : Leads limits b middle s') : Leads limits (.simple op operands :: b) s s' :=
  (Leads.one first).append rest

theorem Leads.push (x : Word) : Leads limits [.pushInt x] s (.int x :: s) :=
  fun _ n => ⟨n + 1, by rw [runPush, runNil]⟩

theorem Leads.callRef {arguments results : Int} (h : Leads limits a s s') :
    Leads limits [.callRef arguments results a] s s' := by
  intro root n
  obtain ⟨k, done⟩ := h root (n + 1)
  have called : step (.callRef arguments results a) ⟨s, root, limits, n + 1⟩ = .ok () ⟨s', root, limits, k⟩ := by
    rw [step]
    exact done
  exact ⟨k, by rw [runConsOk called, runNil]⟩

theorem Trips.append (h : Trips limits a s) (b : List Instr) : Trips limits (a ++ b) s := by
  intro root n
  obtain ⟨why, m, bad, operand⟩ := h root n
  exact ⟨why, m, by rw [runAppend, bindOfError bad], operand⟩

theorem Trips.after (first : Leads limits a s s') (second : Trips limits b s') : Trips limits (a ++ b) s := by
  intro root n
  obtain ⟨k, one⟩ := first root n
  obtain ⟨why, m, bad, operand⟩ := second root k
  exact ⟨why, m, by rw [runAppend, bindOfOk one, bad], operand⟩

theorem blamedOperand {h : Halt} (operand : h.isOperand = true) (arguments results : Int) (body : List Instr) :
    (h.blamedOn (.callRef arguments results body)).isOperand = true := by
  cases h with
  | broken => simp [Halt.isOperand] at operand
  | fault kind site =>
    cases site with
    | none => cases kind <;> simp_all [Halt.isOperand, Halt.blamedOn]
    | some i => exact operand

theorem Trips.callRef {arguments results : Int} (h : Trips limits a s) :
    Trips limits [.callRef arguments results a] s := by
  intro root n
  obtain ⟨why, m, bad, operand⟩ := h root (n + 1)
  have called : step (.callRef arguments results a) ⟨s, root, limits, n + 1⟩ = .error why m := by
    rw [step]
    exact bad
  exact ⟨_, m, runConsError called [], blamedOperand operand arguments results a⟩

namespace Settles

theorem ofLeads (small : Within a) (h : Leads limits a s s') : Settles limits a s s' := by
  refine ⟨fun _ => h, fun large => ?_⟩
  obtain ⟨⟨n, mem, tooLarge⟩, -⟩ := large
  have fits := small n mem
  omega

theorem nil (limits : Capacity) (s : List Value) : Settles limits [] s s :=
  ofLeads (by simp [Within, operandsOf]) (.nil limits s)

theorem append (first : Settles limits a s s') (second : Settles limits b s' s'') :
    Settles limits (a ++ b) s s'' := by
  constructor
  · intro small
    obtain ⟨one, two⟩ := withinAppend.1 small
    exact (first.leads one).append (second.leads two)
  · intro large
    rcases large.ofAppend with early | ⟨small, late⟩
    · exact (first.trips early).append b
    · exact .after (first.leads small) (second.trips late)

theorem one {op : Opcode} {operands : List Int} (carried : op.stackOperands = false)
    (h : ∀ root n, simple op operands ⟨s, root, limits, n⟩ = .ok () ⟨s', root, limits, n⟩) :
    Settles limits [.simple op operands] s s' :=
  ofLeads (by simp [Within, operandsOf, Instr.overStack, carried]) (.one h)

theorem callRef {arguments results : Int} (h : Settles limits a s s') :
    Settles limits [.callRef arguments results a] s s' := by
  have same : operandsOf [.callRef arguments results a] = operandsOf a := by
    simp [operandsOf, Instr.overStack]
  constructor
  · intro small
    rw [Within, same] at small
    exact (h.leads small).callRef
  · intro large
    rw [Exceeds, WordSized, same] at large
    exact (h.trips large).callRef

end Settles

end Machine

end CellChain
