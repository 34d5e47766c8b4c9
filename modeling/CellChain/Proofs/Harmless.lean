import Mathlib
import CellChain.Proofs.Composition
import CellChain.Proofs.Rearranging
/-! Code that trips over no operand but those above the limit, whatever it is run on. All emitted code is such
code. In code that loads values or pushes defaults no operand is above it: the only counts there are the sizes
of tuples, which are checked when they are emitted. -/
namespace CellChain

namespace Machine

def Tame {α : Type} (i : Instr) (x : Step α) : Prop :=
  ∀ m h m', x m = .error h m' → (h.blamedOn i).isOperand = false

namespace Tame

variable {α β : Type} {i : Instr}

theorem ofOk {x : Step α} (h : ∀ m, ∃ a m', x m = .ok a m') : Tame i x := by
  intro m why m' bad
  obtain ⟨a, m'', ok⟩ := h m
  rw [ok] at bad
  cases bad

theorem pure (a : α) : Tame i (Pure.pure a : Step α) := ofOk fun m => ⟨a, m, rfl⟩

theorem bind {x : Step α} {f : α → Step β} (first : Tame i x) (second : ∀ a, Tame i (f a)) : Tame i (x >>= f) := by
  intro m h m' bad
  cases one : x m with
  | ok v middle =>
    rw [bindOfOk one] at bad
    exact second v middle h m' bad
  | error h' middle =>
    rw [bindOfError one] at bad
    cases bad
    exact first m _ _ one

theorem fault {kind : Fault} (other : (Halt.fault kind (some i)).isOperand = false) :
    Tame i (Machine.fault kind : Step α) := by
  intro m h m' bad
  cases bad
  exact other

theorem broken : Tame i (throw .broken : Step α) := by
  intro m h m' bad
  cases bad
  rfl

theorem push (v : Value) : Tame i (Machine.push v) := ofOk fun m => ⟨(), { m with stack := v :: m.stack }, rfl⟩

theorem modify (f : Machine → Machine) : Tame i (modify f : Step Unit) := ofOk fun m => ⟨(), f m, rfl⟩

theorem get : Tame i (get : Step Machine) := ofOk fun m => ⟨m, m, rfl⟩

theorem pop : Tame i Machine.pop := by
  intro m h m' bad
  unfold Machine.pop at bad
  split at bad
  · cases bad
    rfl
  · cases bad

theorem onStack (n : Nat) (f : List Value → List Value) : Tame i (Machine.onStack n f) := by
  intro m h m' bad
  unfold Machine.onStack at bad
  split at bad
  · cases bad
  · cases bad
    rfl

theorem popInt : Tame i Machine.popInt := by
  refine bind pop fun v => ?_
  cases v with
  | int x => exact pure x
  | _ => exact fault rfl

theorem popTuple : Tame i Machine.popTuple := by
  refine bind pop fun v => ?_
  cases v with
  | tuple items => exact pure items
  | _ => exact fault rfl

theorem popCell : Tame i Machine.popCell := by
  refine bind pop fun v => ?_
  cases v with
  | cell c => exact pure c
  | _ => exact fault rfl

theorem popBuilder : Tame i Machine.popBuilder := by
  refine bind pop fun v => ?_
  cases v with
  | builder b => exact pure b
  | _ => exact fault rfl

theorem popSlice : Tame i Machine.popSlice := by
  refine bind pop fun v => ?_
  cases v with
  | slice s => exact pure s
  | _ => exact fault rfl

theorem untuple (n : Nat) : Tame i (Machine.untuple n) := by
  refine bind popTuple fun items => ?_
  split
  · exact modify _
  · exact fault rfl

theorem store {extend : Builder → Step Builder} (h : ∀ b, Tame i (extend b)) : Tame i (Machine.store extend) := by
  refine bind popBuilder fun b => bind (h b) fun b' => bind get fun m => ?_
  split
  · exact push _
  · exact fault rfl

theorem storeInt (fits : Word → Prop) [DecidablePred fits] (n : Int)
    (other : (Halt.fault .rangeCheck (some i)).isOperand = false) : Tame i (Machine.storeInt fits n) := by
  refine store fun b => bind popInt fun x => ?_
  split
  · cases b.storeWord? x n.toNat with
    | none => exact broken
    | some b' => exact pure b'
  · exact fault other

theorem storeDict : Tame i Machine.storeDict := by
  refine store fun b => bind pop fun v => ?_
  cases v with
  | null | cell c => exact pure _
  | _ => exact fault rfl

theorem load (read : Slice → Option (Value × Slice)) : Tame i (Machine.load read) := by
  refine bind popSlice fun s => ?_
  cases read s with
  | none => exact fault rfl
  | some pair => exact bind (push _) fun _ => push _

theorem simple {op : Opcode} (plain : op.counts = false) (operands : List Int) :
    Tame (.simple op operands) (Machine.simple op operands) := by
  cases op <;> cases plain
  case null | newDict | newC => exact push _
  case drop => exact bind pop fun _ => pure _
  case nip => exact onStack 2 fun stack => stack.take 1 ++ stack.drop 2
  case swap | rot | rotRev => exact onStack _ _
  case pair => exact onStack 2 fun stack => .tuple (stack.take 2).reverse :: stack.drop 2
  case unpair => exact untuple _
  case endC => exact bind popBuilder fun _ => push _
  case cToS => exact bind popCell fun _ => push _
  case stU | stI => exact storeInt _ _ rfl
  case stDict => exact storeDict
  case stRef => exact store fun _ => bind popCell fun _ => pure _
  case stSlice => exact store fun _ => bind popSlice fun _ => pure _
  case stBRefR => exact bind popBuilder fun _ => store fun _ => pure _
  case endS =>
    refine bind popSlice fun s => ?_
    split
    · exact pure _
    · exact fault rfl
  case ldU | ldI | ldDict | ldRef | ldSlice => exact load _
  case ldRefRToS =>
    refine bind popSlice fun s => ?_
    cases s.ref? with
    | none => exact fault rfl
    | some pair => exact bind (push _) fun _ => push _
  case pushRoot => exact bind get fun _ => push _
  case popRoot => exact bind popCell fun _ => modify _
  case unknown => exact fault rfl

end Tame

structure Harmless (few : Prop) (code : List Instr) : Prop where
  within : few → Within code
  safe : Within code → ∀ m h m', run code m = .error h m' → h.isOperand = false

namespace Harmless

variable {few : Prop}

theorem nil : Harmless few [] := by
  refine ⟨fun _ => by decide, fun _ m h m' bad => ?_⟩
  rw [runNil] at bad
  cases bad

theorem append {a b : List Instr} (first : Harmless few a) (second : Harmless few b) : Harmless few (a ++ b) := by
  refine ⟨fun h => withinAppend.2 ⟨first.within h, second.within h⟩, fun small m h m' bad => ?_⟩
  obtain ⟨smallFirst, smallSecond⟩ := withinAppend.1 small
  rw [runAppend] at bad
  cases one : run a m with
  | ok v middle =>
    rw [bindOfOk one] at bad
    exact second.safe smallSecond middle h m' bad
  | error h' middle =>
    rw [bindOfError one] at bad
    cases bad
    exact first.safe smallFirst m _ _ one

theorem pushInt (x : Word) : Harmless few [.pushInt x] := by
  refine ⟨fun _ => by simp [Within, operandsOf, Instr.overStack], fun _ m h m' bad => ?_⟩
  rw [runPush, runNil] at bad
  cases bad

theorem ofTame {i : Instr} {x : Step Unit} (tame : Tame i x) {m m' : Machine} {h : Halt}
    (bad : blaming i x m = .error h m') : h.isOperand = false := by
  cases done : x m with
  | ok v middle => simp [blaming, done] at bad
  | error why middle =>
    simp only [blaming, done] at bad
    cases bad
    exact tame _ _ _ done

theorem one {op : Opcode} {operands : List Int} (carried : op.stackOperands = false)
    (tame : Tame (.simple op operands) (simple op operands)) : Harmless few [.simple op operands] := by
  refine ⟨fun _ => withinCarried carried operands, fun _ m h m' bad => ?_⟩
  rw [runSingle, step] at bad
  exact ofTame tame bad

theorem pushedOne {op : Opcode} {k : Int} {body : Nat → Step Unit} (low : 0 ≤ k) (high : k ≤ operandLimit)
    (opens : simple op [k] = do body (← popOperand 255)) (tame : ∀ n, Tame (.simple op [k]) (body n)) :
    Harmless few [.pushInt (BitVec.ofInt 256 k), .simple op [k]] := by
  have most : k ≤ 255 := high
  have word := smallWord low (by omega : k < 2 ^ 256)
  refine ⟨fun _ => ?_, fun _ m h m' bad => ?_⟩
  · cases taken : op.stackOperands <;> simp [Within, operandsOf, Instr.overStack, taken, high]
  · rw [runPush, runSingle, step, opens] at bad
    have taken := bindOfOk (popOperandOk (by omega : (BitVec.ofInt 256 k).toNat ≤ 255) m.stack m.root m.limits
      (m.executed + 1 + 1)) body
    exact ofTame (x := body (BitVec.ofInt 256 k).toNat) (tame _) (by rw [← bad, blaming, blaming, taken])

theorem pushedTwo {op : Opcode} {i j : Int} {body : Nat → Nat → Step Unit} (taken : op.stackOperands = true)
    (lowI : 0 ≤ i) (lowJ : 0 ≤ j) (fits : few → i ≤ operandLimit ∧ j ≤ operandLimit)
    (opens : simple op [i, j] = do let y ← popOperand 255; let x ← popOperand 255; body x y)
    (tame : ∀ x y, Tame (.simple op [i, j]) (body x y)) :
    Harmless few (pushedFor op i j) := by
  refine ⟨fun h => withinPushed (fits h).1 (fits h).2, fun small m h m' bad => ?_⟩
  simp only [Within, operandsPushed taken, List.mem_cons, List.not_mem_nil, or_false, forall_eq_or_imp, forall_eq,
    operandLimit] at small
  have one := smallWord lowI (by omega)
  have two := smallWord lowJ (by omega)
  rw [pushedFor, runPush, runPush, runSingle, step, opens] at bad
  have opened := @twoOperandsOk (BitVec.ofInt 256 i) (BitVec.ofInt 256 j) body (by omega) (by omega) m.stack m.root
    m.limits (m.executed + 1 + 1 + 1)
  exact ofTame (tame _ _) (by rw [← bad, blaming, blaming, opened])

theorem callRef {arguments results : Int} {body : List Instr} (h : Harmless few body) :
    Harmless few [.callRef arguments results body] := by
  have same : operandsOf [.callRef arguments results body] = operandsOf body := by
    simp [operandsOf, Instr.overStack]
  refine ⟨fun small => ?_, fun small m why m' bad => ?_⟩
  · rw [Within, same]
    exact h.within small
  · rw [Within, same] at small
    rw [runSingle, step] at bad
    refine ofTame (fun m why m' bad => ?_) bad
    have mild := h.safe small m why m' bad
    cases why with
    | broken => rfl
    | fault kind site =>
      cases site with
      | some i => exact mild
      | none => cases kind <;> simp_all [Halt.blamedOn, Halt.isOperand]

end Harmless

end Machine

namespace Emit

open Machine

variable {target : Target} {few : Prop}

theorem harmlessComposes (few : Prop) : Composes fun _ code _ => Harmless few code where
  nothing _ := .nil
  joined first second := first.append second
  literal x _ := .pushInt x
  plain few _ _ := .one (Opcode.carriedOfPlain few) (.simple few _)
  called _ _ h := h.callRef

theorem tupleOpHarmless {carried stacked : Opcode} {k : Int} {body : Nat → Step Unit}
    (short : carried.stackOperands = false)
    (carriedOpens : simple carried [k] = do body (← immediate [k] 0 0 15))
    (stackedOpens : simple stacked [k] = do body (← popOperand 255)) (tame : ∀ i n, Tame i (body n)) :
    Writes target (tupleOp carried stacked k) fun _ _ code _ => Harmless few code ∧ k ≤ operandLimit := by
  refine (tupleOpCode carried stacked k).mono ?_
  rintro _ _ _ _ ⟨range, ⟨small, rfl⟩ | rfl⟩
  · refine ⟨.one short ?_, range.2⟩
    rw [carriedOpens, immediateThen rfl range.1 small]
    exact tame _ _
  · exact ⟨.pushedOne range.1 range.2 stackedOpens (tame _), range.2⟩

theorem tupleHarmless (few : Prop) (k : Int) : Writes target (tuple k) fun _ _ code _ =>
    Harmless few code ∧ k ≤ operandLimit :=
  tupleOpHarmless rfl rfl rfl fun _ n => Tame.onStack n _

theorem reverseHarmless {n : Int} (fits : few → n ≤ operandLimit) :
    Writes target (reverse n 0) fun _ _ code _ => Harmless few code := by
  refine (reverseCode n 0).mono ?_
  rintro _ _ _ _ ⟨least, ⟨small, high, rfl⟩ | ⟨-, rfl⟩⟩
  · refine .one rfl ?_
    rw [reverseCarried least small le_rfl high]
    exact Tame.onStack _ _
  · exact .pushedTwo rfl (by omega) le_rfl (fun h => ⟨fits h, by decide⟩) rfl fun x y => Tame.onStack _ _

theorem blockSwapHarmless (few : Prop) {i : Int} (low : 0 ≤ i) : Writes target (blockSwap i 1) fun _ _ code _ =>
    (few → i ≤ operandLimit) → Harmless few code := by
  refine (blockSwapCode i 1).mono ?_
  rintro _ _ _ _ (⟨-, rfl⟩ | ⟨-, rfl⟩ | ⟨some, small, one, rfl⟩ | ⟨-, rfl⟩) fits
  · exact .nil
  · exact .one rfl (.simple rfl _)
  · refine .one rfl ?_
    rw [blockSwapCarried (by omega) small le_rfl one]
    exact Tame.onStack _ _
  · exact .pushedTwo rfl low (by decide) (fun h => ⟨fits h, by decide⟩) rfl fun x y => Tame.onStack _ _

theorem groupHarmless (k : Nat) : Writes target (Load.group k) fun _ _ code _ => Harmless few code := by
  refine .bind (blockSwapHarmless few (by omega : (0 : Int) ≤ k)) fun _ _ a _ moved => ?_
  refine .bind (tupleHarmless few k) fun _ _ b _ packed => .op fun _ _ _ _ => ?_
  exact (moved fun _ => packed.2).append (packed.1.append (.one rfl (.simple rfl _)))

theorem harmlessReads : ReadLaw target fun _ code _ => Harmless True code where
  toComposes := harmlessComposes True
  tuple k := Writes.mono (tupleHarmless True k) fun _ _ _ _ h => h.1
  group k := groupHarmless k

/- Nothing bounds the counts of values that wait to be stored. -/
theorem harmlessWrites : WriteLaw target fun _ code _ => Harmless False code where
  toComposes := harmlessComposes False
  untuple _ := Writes.mono (tupleOpHarmless rfl rfl rfl fun _ n => Tame.untuple n) fun _ _ _ _ h => h.1
  reverse _ := reverseHarmless False.elim
  blockSwap _ low := Writes.mono (blockSwapHarmless False low) fun _ _ _ _ h => h False.elim

end Emit

end CellChain
