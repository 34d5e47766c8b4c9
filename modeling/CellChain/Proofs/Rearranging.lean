import Mathlib
import CellChain.Proofs.Outcomes
/-! Running the emitter's stack operations: what each makes of the values it names. The counts of a reversal
and of a block swap go over the stack when they are large, and nothing bounds them there; the size of a tuple
is checked when it is emitted. -/
namespace CellChain

open Machine

variable {target : Target} {limits : Capacity}

def pushedFor (op : Opcode) (i j : Int) : List Instr :=
  [.pushInt (BitVec.ofInt 256 i), .pushInt (BitVec.ofInt 256 j), .simple op [i, j]]

theorem operandsPushed {op : Opcode} (taken : op.stackOperands = true) (i j : Int) :
    operandsOf (pushedFor op i j) = [i, j] := by
  simp [pushedFor, operandsOf, Instr.overStack, taken]

theorem pushedOperands {op : Opcode} {i j : Int} {s s' : List Value} {body : Nat → Nat → Step Unit}
    (taken : op.stackOperands = true) (lowI : 0 ≤ i) (lowJ : 0 ≤ j)
    (opens : simple op [i, j] = do let y ← popOperand 255; let x ← popOperand 255; body x y)
    (h : ∀ root n, body i.toNat j.toNat ⟨s, root, limits, n⟩ = .ok () ⟨s', root, limits, n⟩) :
    Settles limits (pushedFor op i j) s s' := by
  have listed := operandsPushed taken i j
  have begun : ∀ root n, run (pushedFor op i j) ⟨s, root, limits, n⟩ = run [.simple op [i, j]]
      ⟨.int (BitVec.ofInt 256 j) :: .int (BitVec.ofInt 256 i) :: s, root, limits, n + 2⟩ := by
    intro root n
    rw [pushedFor, runPush, runPush]
  constructor
  · intro small
    simp only [Within, listed, List.mem_cons, List.not_mem_nil, or_false, forall_eq_or_imp, forall_eq,
      operandLimit] at small
    have one := smallWord lowI (by omega)
    have two := smallWord lowJ (by omega)
    intro root n
    have done : step (.simple op [i, j])
        ⟨.int (BitVec.ofInt 256 j) :: .int (BitVec.ofInt 256 i) :: s, root, limits, n + 2 + 1⟩ =
        .ok () ⟨s', root, limits, n + 2 + 1⟩ := by
      rw [step, opens, twoOperandsOk (by omega) (by omega), one, two]
      exact h root (n + 2 + 1)
    exact ⟨n + 2 + 1, by rw [begun, runConsOk done, runNil]⟩
  · intro large
    simp only [Exceeds, WordSized, listed, List.mem_cons, List.not_mem_nil, or_false, forall_eq_or_imp, forall_eq,
      exists_eq_or_imp, exists_eq_left, operandLimit] at large
    have one := smallWord lowI large.2.1
    have two := smallWord lowJ large.2.2
    intro root n
    have large : 255 < (BitVec.ofInt 256 i).toNat ∨ 255 < (BitVec.ofInt 256 j).toNat := by omega
    have bad := @twoOperandsOver _ _ body large s root limits (n + 2 + 1)
    rw [← opens] at bad
    rw [begun]
    refine ⟨_, _, runConsError (i := .simple op [i, j]) (by rw [step]; exact bad) [], ?_⟩
    simpa [Halt.blamedOn, Halt.isOperand] using taken

theorem immediateOk {operands : List Int} {k : Nat} {low high n : Int} (carried : Instr.operand operands k = n)
    (least : low ≤ n) (most : n ≤ high) (m : Machine) : immediate operands k low high m = .ok n.toNat m := by
  have inside : ¬(n < low ∨ high < n) := by omega
  simp only [immediate, carried, if_neg inside]
  rfl

theorem immediateThen {operands : List Int} {k : Nat} {low high n : Int} {f : Nat → Step Unit}
    (carried : Instr.operand operands k = n) (least : low ≤ n) (most : n ≤ high) :
    (immediate operands k low high >>= f) = f n.toNat := by
  funext m
  exact bindOfOk (immediateOk carried least most m) f

theorem reverseCarried {n i : Int} (least : 2 ≤ n) (most : n ≤ 17) (low : 0 ≤ i) (high : i ≤ 15) :
    simple .reverse [n, i] = Machine.reverse n.toNat i.toNat := by
  simp only [simple]
  rw [immediateThen (n := n) rfl least most, immediateThen (n := i) rfl low high]

theorem swapOk (a b : Value) (rest : List Value) (root : Cell) (k : Nat) :
    simple .swap [] ⟨a :: b :: rest, root, limits, k⟩ = .ok () ⟨b :: a :: rest, root, limits, k⟩ := by
  simp [simple, Machine.reverse, onStack, reverseEntries, swapInwards, swapAt]

theorem blockSwapCarried {i j : Int} (lowI : 1 ≤ i) (highI : i ≤ 16) (lowJ : 1 ≤ j) (highJ : j ≤ 16) :
    simple .blkSwap [i, j] = Machine.blockSwap i.toNat j.toNat := by
  simp only [simple]
  rw [immediateThen (n := i) rfl lowI highI, immediateThen (n := j) rfl lowJ highJ]

theorem reverseOk (above entries rest : List Value) (root : Cell) (k : Nat) :
    Machine.reverse entries.length above.length ⟨above ++ (entries ++ rest), root, limits, k⟩ =
      .ok () ⟨above ++ (entries.reverse ++ rest), root, limits, k⟩ := by
  have enough : entries.length + above.length ≤ (above ++ (entries ++ rest)).length := by
    simp only [List.length_append]
    omega
  rw [Machine.reverse, onStack, if_pos enough, reverseParts]

theorem blockSwapOk (above next rest : List Value) (root : Cell) (k : Nat) :
    Machine.blockSwap next.length above.length ⟨above ++ (next ++ rest), root, limits, k⟩ =
      .ok () ⟨next ++ (above ++ rest), root, limits, k⟩ := by
  have enough : next.length + above.length ≤ (above ++ (next ++ rest)).length := by
    simp only [List.length_append]
    omega
  rw [Machine.blockSwap, onStack, if_pos enough, swapParts]

theorem tupleOk (items rest : List Value) (root : Cell) (k : Nat) :
    Machine.tuple items.length ⟨items.reverse ++ rest, root, limits, k⟩ =
      .ok () ⟨.tuple items :: rest, root, limits, k⟩ := by
  simp [Machine.tuple, onStack]

theorem popTupleOk (items rest : List Value) (root : Cell) (k : Nat) :
    popTuple ⟨.tuple items :: rest, root, limits, k⟩ = .ok items ⟨rest, root, limits, k⟩ := rfl

theorem untupleOk (items rest : List Value) (root : Cell) (k : Nat) :
    Machine.untuple items.length ⟨.tuple items :: rest, root, limits, k⟩ =
      .ok () ⟨items.reverse ++ rest, root, limits, k⟩ := by
  rw [Machine.untuple, bindOfOk (popTupleOk ..), if_pos rfl]
  rfl

theorem indexOk {items : List Value} {k : Nat} {v : Value} (found : items[k]? = some v) (rest : List Value)
    (root : Cell)
    (n : Nat) : Machine.index k ⟨.tuple items :: rest, root, limits, n⟩ = .ok () ⟨v :: rest, root, limits, n⟩ := by
  rw [Machine.index, bindOfOk (popTupleOk ..), found]
  rfl

theorem setIndexOk {items : List Value} {k : Nat} (inside : k < items.length) (v : Value) (rest : List Value)
    (root : Cell) (n : Nat) : Machine.setIndex k ⟨v :: .tuple items :: rest, root, limits, n⟩ =
      .ok () ⟨.tuple (items.set k v) :: rest, root, limits, n⟩ := by
  have popped : pop ⟨v :: .tuple items :: rest, root, limits, n⟩ = .ok v ⟨.tuple items :: rest, root, limits, n⟩ := rfl
  have replaced : withMember items k v = .ok (items.set k v) := by
    rw [withMember, if_pos ⟨Int.natCast_nonneg k, by omega⟩, Int.toNat_natCast]
  rw [Machine.setIndex, bindOfOk popped, bindOfOk (popTupleOk ..), replaced]
  rfl

theorem carriedLeads {op : Opcode} {k : Int} {s s' : List Value} {body : Nat → Step Unit}
    (opens : simple op [k] = do body (← immediate [k] 0 0 15)) (low : 0 ≤ k) (small : k ≤ 15)
    (h : ∀ root n, body k.toNat ⟨s, root, limits, n⟩ = .ok () ⟨s', root, limits, n⟩) :
    Leads limits [.simple op [k]] s s' := by
  refine .one fun root n => ?_
  rw [opens, immediateThen rfl low small]
  exact h root n

theorem pushedLeads {op : Opcode} {k : Int} {high : Nat} {s s' : List Value} {body : Nat → Step Unit}
    (opens : simple op [k] = do body (← popOperand high)) (low : 0 ≤ k) (small : k ≤ high) (most : high ≤ 255)
    (h : ∀ root n, body k.toNat ⟨s, root, limits, n⟩ = .ok () ⟨s', root, limits, n⟩) :
    Leads limits [.pushInt (BitVec.ofInt 256 k), .simple op [k]] s s' := by
  refine (Leads.push _).append (.one fun root n => ?_)
  have word : (BitVec.ofInt 256 k).toNat = k.toNat := smallWord low (by omega)
  rw [opens, bindOfOk (popOperandOk (by omega) ..), word]
  exact h root n

theorem withinCarried {op : Opcode} (carried : op.stackOperands = false) (operands : List Int) :
    Within [.simple op operands] := by
  simp [Within, operandsOf, Instr.overStack, carried]

theorem withinPushed {op : Opcode} {i j : Int} (one : i ≤ operandLimit) (two : j ≤ operandLimit) :
    Within (pushedFor op i j) := by
  cases taken : op.stackOperands <;> simp [pushedFor, Within, operandsOf, Instr.overStack, taken, one, two]

namespace Emit

theorem pushedCode {i j : Int} {op : Opcode} : Writes target (do pushSmall i; pushSmall j; Emit.op op [i, j])
    fun _ _ code _ => code = pushedFor op i j := by
  refine .bind (.pushSmall i) ?_
  rintro d _ _ _ ⟨rfl, rfl⟩
  refine .bind (.pushSmall j) ?_
  rintro d' _ _ _ ⟨rfl, rfl⟩
  exact .op fun _ _ _ _ => rfl

theorem reverseCode (n i : Int) : Writes target (reverse n i) fun _ _ code _ => 2 ≤ n ∧
    (n ≤ 17 ∧ i ≤ 15 ∧ code = [.simple .reverse [n, i]] ∨ (17 < n ∨ 15 < i) ∧ code = pushedFor .revX n i) := by
  refine .bind (Q := fun _ _ code _ => 2 ≤ n ∧ code = []) (.check fun h _ => ⟨h, rfl⟩) ?_
  rintro _ _ _ _ ⟨least, rfl⟩
  by_cases small : n ≤ maxReverseCount ∧ i ≤ maxReverseOffset
  · rw [if_pos small]
    exact .op fun _ _ _ => ⟨least, .inl ⟨small.1, small.2, rfl⟩⟩
  · rw [if_neg small]
    rw [not_and_or, not_le, not_le] at small
    exact pushedCode.mono fun _ _ _ _ h _ => ⟨least, .inr ⟨small, h⟩⟩

theorem blockSwapCode (i j : Int) : Writes target (blockSwap i j) fun _ _ code _ =>
    (i = 0 ∨ j = 0) ∧ code = [] ∨ (i = 1 ∧ j = 1) ∧ code = [.simple .swap []] ∨
      (i ≠ 0 ∧ j ≠ 0) ∧ i ≤ 16 ∧ j ≤ 16 ∧ code = [.simple .blkSwap [i, j]] ∨
      (16 < i ∨ 16 < j) ∧ code = pushedFor .blkSwX i j := by
  unfold blockSwap
  split
  · rename_i empty
    exact .pure fun _ => .inl ⟨empty, rfl⟩
  split
  · rename_i single
    exact .op fun _ _ => .inr (.inl ⟨single, rfl⟩)
  split
  · rename_i some _ small
    exact .op fun _ _ => .inr (.inr (.inl ⟨not_or.1 some, small.1, small.2, rfl⟩))
  · rename_i large
    rw [not_and_or, not_le, not_le] at large
    exact pushedCode.mono fun _ _ _ _ h => .inr (.inr (.inr ⟨large, h⟩))

theorem tupleOpCode (carried stacked : Opcode) (k : Int) : Writes target (tupleOp carried stacked k)
    fun _ _ code _ => (0 ≤ k ∧ k ≤ operandLimit) ∧ (k ≤ 15 ∧ code = [.simple carried [k]] ∨
      code = [.pushInt (BitVec.ofInt 256 k), .simple stacked [k]]) := by
  refine .bind (Q := fun _ _ code _ => (0 ≤ k ∧ k ≤ operandLimit) ∧ code = []) (.check fun h _ => ⟨h, rfl⟩) ?_
  rintro _ _ _ _ ⟨range, rfl⟩
  split
  · rename_i small
    exact .op fun _ _ _ => ⟨range, .inl ⟨small, rfl⟩⟩
  · refine .bind (.pushSmall k) ?_
    rintro _ _ _ _ ⟨rfl, rfl⟩
    exact .op fun _ _ _ _ => ⟨range, .inr rfl⟩

variable (limits)

theorem reverseSettles (n i : Int) : Writes target (reverse n i) fun _ _ code _ =>
    (n ≤ operandLimit → i ≤ operandLimit → Within code) ∧ ∀ above entries rest : List Value,
      (above.length : Int) = i → (entries.length : Int) = n →
        Settles limits code (above ++ (entries ++ rest)) (above ++ (entries.reverse ++ rest)) := by
  refine (reverseCode n i).mono ?_
  rintro _ _ _ _ ⟨least, ⟨small, high, rfl⟩ | ⟨-, rfl⟩⟩
  · refine ⟨fun _ _ => withinCarried rfl _, ?_⟩
    rintro above entries rest rfl rfl
    refine .one rfl fun root k => ?_
    rw [reverseCarried least small (Int.natCast_nonneg _) high]
    exact reverseOk above entries rest root k
  · refine ⟨fun one two => withinPushed one two, ?_⟩
    rintro above entries rest rfl rfl
    exact pushedOperands rfl (Int.natCast_nonneg _) (Int.natCast_nonneg _) rfl (reverseOk above entries rest)

theorem arrangeSettles (n : Nat) : Writes target (arrange n) fun _ _ code _ =>
    ((n : Int) ≤ operandLimit → Within code) ∧ ∀ top rest : List Value, top.length = n →
      Settles limits code (top ++ rest) (top.reverse ++ rest) := by
  unfold arrange
  split
  · refine (reverseSettles limits n 0).mono fun _ _ code _ h => ⟨fun fits => h.1 fits (by decide), ?_⟩
    exact fun top rest size => h.2 [] top rest rfl (by omega)
  · refine .pure fun _ => ⟨fun _ => by decide, fun top rest size => ?_⟩
    have same : top.reverse = top := by
      cases top with
      | nil => rfl
      | cons v others =>
        have none : others = [] := List.eq_nil_of_length_eq_zero (by simp at size; omega)
        rw [none]
        rfl
    rw [same]
    exact .nil limits _

theorem swapSettles : Writes target swap fun _ _ code _ => Within code ∧
    ∀ (a b : Value) (rest : List Value), Settles limits code (a :: b :: rest) (b :: a :: rest) := by
  exact .op fun _ _ => ⟨withinCarried rfl _, fun a b rest => .one rfl (swapOk a b rest)⟩

theorem blockSwapSettles (i j : Int) : Writes target (blockSwap i j) fun _ _ code _ =>
    (i ≤ operandLimit → j ≤ operandLimit → Within code) ∧ ∀ above next rest : List Value,
      (above.length : Int) = j → (next.length : Int) = i →
        Settles limits code (above ++ (next ++ rest)) (next ++ (above ++ rest)) := by
  refine (blockSwapCode i j).mono ?_
  rintro _ _ _ _ (⟨empty, rfl⟩ | ⟨⟨rfl, rfl⟩, rfl⟩ | ⟨some, highI, highJ, rfl⟩ | ⟨large, rfl⟩)
  · refine ⟨fun _ _ => by decide, ?_⟩
    rintro above next rest rfl rfl
    rcases empty with none | none
    · rw [Int.natCast_eq_zero, List.length_eq_zero_iff] at none
      rw [none]
      exact .nil limits _
    · rw [Int.natCast_eq_zero, List.length_eq_zero_iff] at none
      rw [none]
      exact .nil limits _
  · refine ⟨fun _ _ => by decide, fun above next rest one two => .one rfl fun root k => ?_⟩
    obtain ⟨v, rfl⟩ := List.length_eq_one_iff.1 (show above.length = 1 by omega)
    obtain ⟨w, rfl⟩ := List.length_eq_one_iff.1 (show next.length = 1 by omega)
    exact swapOk v w rest root k
  · refine ⟨fun _ _ => withinCarried rfl _, ?_⟩
    rintro above next rest rfl rfl
    refine .one rfl fun root k => ?_
    rw [blockSwapCarried (by omega) highI (by omega) highJ]
    exact blockSwapOk above next rest root k
  · refine ⟨fun one two => withinPushed one two, ?_⟩
    rintro above next rest rfl rfl
    exact pushedOperands rfl (Int.natCast_nonneg _) (Int.natCast_nonneg _) rfl (blockSwapOk above next rest)

/- Tuple instructions: `k` is in range, so its form with the operand on the stack works alike. -/
theorem tupleOpLeads {carried stacked : Opcode} {k : Int} {body : Nat → Step Unit}
    (short : carried.stackOperands = false)
    (carriedOpens : simple carried [k] = do body (← immediate [k] 0 0 15))
    (stackedOpens : simple stacked [k] = do body (← popOperand 255)) :
    Writes target (tupleOp carried stacked k) fun _ _ code _ => Within code ∧ (0 ≤ k ∧ k ≤ 255) ∧
      ∀ s s', (∀ root n, body k.toNat ⟨s, root, limits, n⟩ = .ok () ⟨s', root, limits, n⟩) →
        Leads limits code s s' := by
  refine (tupleOpCode carried stacked k).mono ?_
  rintro _ _ _ _ ⟨range, ⟨small, rfl⟩ | rfl⟩
  · exact ⟨withinCarried short _, range, fun s s' h => carriedLeads carriedOpens range.1 small h⟩
  · refine ⟨?_, range, fun s s' h => pushedLeads stackedOpens range.1 range.2 le_rfl h⟩
    cases taken : stacked.stackOperands <;> simp [Within, operandsOf, Instr.overStack, taken, range.2]

theorem untupleLeads (k : Nat) : Writes target (untuple k) fun _ _ code _ => Within code ∧
    ∀ items rest : List Value, items.length = k → Leads limits code (.tuple items :: rest) (items.reverse ++ rest) := by
  refine (tupleOpLeads limits rfl rfl rfl).mono fun _ _ code _ h => ⟨h.1, ?_⟩
  rintro items rest rfl
  exact h.2.2 _ _ (untupleOk items rest)

theorem tupleLeads (k : Nat) : Writes target (tuple k) fun _ _ code _ => Within code ∧ k ≤ 255 ∧
    ∀ items rest : List Value, items.length = k → Leads limits code (items.reverse ++ rest) (.tuple items :: rest) := by
  refine (tupleOpLeads limits rfl rfl rfl).mono fun _ _ code _ h => ⟨h.1, by omega, ?_⟩
  rintro items rest rfl
  exact h.2.2 _ _ (tupleOk items rest)

end Emit

end CellChain
