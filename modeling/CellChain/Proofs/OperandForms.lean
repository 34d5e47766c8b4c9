import Mathlib
import CellChain.Proofs.Completion
import CellChain.Proofs.Rearranging
/-! The operations with operands have two forms: a small operand is carried by the instruction, a larger one is
pushed for it. Within the range that the machine takes from its stack, both forms and whatever the emitter
selects of them do one thing to the entries they name, and nothing to those below. -/
namespace CellChain

open Machine

def Makes (code : List Instr) (before after : List Value) : Prop :=
  ∀ limits rest, Leads limits code (before ++ rest) (after ++ rest)

def pushedAlone (op : Opcode) (k : Int) : List Instr :=
  [.pushInt (BitVec.ofInt 256 k), .simple op [k]]

theorem Makes.nil (entries : List Value) : Makes [] entries entries := fun limits _ => .nil limits _

theorem Makes.one {op : Opcode} {operands : List Int} {before after : List Value}
    (h : ∀ limits rest root n, simple op operands ⟨before ++ rest, root, limits, n⟩ =
      .ok () ⟨after ++ rest, root, limits, n⟩) : Makes [.simple op operands] before after :=
  fun limits rest => .one (h limits rest)

theorem Makes.pushed {op : Opcode} {i j : Nat} {before after : List Value} {body : Nat → Nat → Step Unit}
    (taken : op.stackOperands = true) (highI : i ≤ 255) (highJ : j ≤ 255)
    (opens : simple op [(i : Int), (j : Int)] = do let y ← popOperand 255; let x ← popOperand 255; body x y)
    (h : ∀ limits rest root n, body i j ⟨before ++ rest, root, limits, n⟩ =
      .ok () ⟨after ++ rest, root, limits, n⟩) : Makes (pushedFor op i j) before after := by
  intro limits rest
  have settled := pushedOperands taken (Int.natCast_nonneg i) (Int.natCast_nonneg j) opens (h limits rest)
  have fits (k : Nat) (high : k ≤ 255) : (k : Int) ≤ operandLimit := by
    unfold operandLimit
    omega
  exact settled.leads (withinPushed (fits i highI) (fits j highJ))

namespace Emit

/- An operation replaces `before` by `after`, in each of its two forms and in the one that it selects. Emitting it
does not abort where the model has the entries. -/
structure OneMeaning (x : Emit Unit) (small : Prop) (carried pushed : List Instr) (before after : List Value) :
    Prop where
  carried : small → Makes carried before after
  pushed : Makes pushed before after
  emitted : ∀ e : Emitter, (before.length : Int) ≤ e.depth → ∃ code,
    x e = .ok ((), e.write code (e.depth - before.length + after.length)) ∧ Makes code before after

theorem OneMeaning.intro {x : Emit Unit} {small : Prop} {carried pushed : List Instr} {before after : List Value}
    (short : small → Makes carried before after) (long : Makes pushed before after)
    (completes : ∀ (target : Target) (d : Int), (before.length : Int) ≤ d →
      Completes target d x fun _ d' => d' = d - before.length + after.length)
    (writes : ∀ target, Writes target x fun _ _ code _ => Makes code before after) :
    OneMeaning x small carried pushed before after := by
  refine ⟨short, long, fun e enough => ?_⟩
  obtain ⟨_, code, _, ok, rfl, makes⟩ := (completes e.target e.depth enough).known (writes e.target) rfl rfl
  exact ⟨code, ok, makes⟩

theorem reverseMeaning (above entries : List Value) (two : 2 ≤ entries.length) (most : entries.length ≤ 255)
    (high : above.length ≤ 255) :
    OneMeaning (reverse entries.length above.length) (entries.length ≤ 17 ∧ above.length ≤ 15)
      [.simple .reverse [(entries.length : Int), (above.length : Int)]]
      (pushedFor .revX entries.length above.length) (above ++ entries) (above ++ entries.reverse) := by
  have done (limits : Capacity) (rest : List Value) (root : Cell) (n : Nat) :
      Machine.reverse entries.length above.length ⟨above ++ entries ++ rest, root, limits, n⟩ =
        .ok () ⟨above ++ entries.reverse ++ rest, root, limits, n⟩ := by
    rw [List.append_assoc, List.append_assoc]
    exact reverseOk above entries rest root n
  have short (small : entries.length ≤ 17 ∧ above.length ≤ 15) :
      Makes [.simple .reverse [(entries.length : Int), (above.length : Int)]] (above ++ entries)
        (above ++ entries.reverse) := by
    refine .one ?_
    rw [reverseCarried (by omega) (by omega) (by omega) (by omega)]
    exact done
  have long : Makes (pushedFor .revX entries.length above.length) (above ++ entries) (above ++ entries.reverse) :=
    .pushed rfl most high rfl done
  refine .intro short long (fun target d enough => ?_) fun target => ?_
  · simp only [List.length_append, List.length_reverse] at enough ⊢
    exact (reverseCompletes (by omega) (by omega) (by omega)).mono fun _ _ same => by omega
  · refine (reverseCode _ _).mono ?_
    rintro _ _ _ _ ⟨-, ⟨few, near, rfl⟩ | ⟨-, rfl⟩⟩
    · exact short (by omega)
    · exact long

theorem blockSwapMeaning (above next : List Value) (highAbove : above.length ≤ 255) (highNext : next.length ≤ 255) :
    OneMeaning (blockSwap next.length above.length)
      ((1 ≤ next.length ∧ next.length ≤ 16) ∧ 1 ≤ above.length ∧ above.length ≤ 16)
      [.simple .blkSwap [(next.length : Int), (above.length : Int)]]
      (pushedFor .blkSwX next.length above.length) (above ++ next) (next ++ above) := by
  have done (limits : Capacity) (rest : List Value) (root : Cell) (n : Nat) :
      Machine.blockSwap next.length above.length ⟨above ++ next ++ rest, root, limits, n⟩ =
        .ok () ⟨next ++ above ++ rest, root, limits, n⟩ := by
    rw [List.append_assoc, List.append_assoc]
    exact blockSwapOk above next rest root n
  have short (small : (1 ≤ next.length ∧ next.length ≤ 16) ∧ 1 ≤ above.length ∧ above.length ≤ 16) :
      Makes [.simple .blkSwap [(next.length : Int), (above.length : Int)]] (above ++ next) (next ++ above) := by
    refine .one ?_
    rw [blockSwapCarried (by omega) (by omega) (by omega) (by omega)]
    exact done
  have long : Makes (pushedFor .blkSwX next.length above.length) (above ++ next) (next ++ above) :=
    .pushed rfl highNext highAbove rfl done
  refine .intro short long (fun target d enough => ?_) fun target => ?_
  · simp only [List.length_append] at enough ⊢
    exact (blockSwapCompletes (by omega) (by omega) (by omega)).mono fun _ _ same => by omega
  · refine (blockSwapCode _ _).mono ?_
    rintro _ _ _ _ (⟨empty, rfl⟩ | ⟨⟨one, single⟩, rfl⟩ | ⟨some, few, near, rfl⟩ | ⟨-, rfl⟩)
    · rw [Int.natCast_eq_zero, Int.natCast_eq_zero, List.length_eq_zero_iff, List.length_eq_zero_iff] at empty
      rcases empty with rfl | rfl
      · rw [List.append_nil, List.nil_append]
        exact .nil above
      · rw [List.append_nil, List.nil_append]
        exact .nil next
    · obtain ⟨v, rfl⟩ := List.length_eq_one_iff.1 (show above.length = 1 by omega)
      obtain ⟨w, rfl⟩ := List.length_eq_one_iff.1 (show next.length = 1 by omega)
      exact .one fun _ rest root n => swapOk v w rest root n
    · exact short (by omega)
    · exact long

theorem tupleOpMeaning {carried stacked : Opcode} {k high : Nat} {before after : List Value} {body : Nat → Step Unit}
    (within : k ≤ high) (most : high ≤ 255)
    (carriedOpens : simple carried [(k : Int)] = do body (← immediate [(k : Int)] 0 0 15))
    (stackedOpens : simple stacked [(k : Int)] = do body (← popOperand high))
    (short : Instr.effect? (.simple carried [(k : Int)]) = some ((before.length : Int), (after.length : Int)))
    (long : Instr.effect? (.simple stacked [(k : Int)]) =
      some ((before.length : Int) + 1, (after.length : Int)))
    (done : ∀ limits rest root n, body k ⟨before ++ rest, root, limits, n⟩ = .ok () ⟨after ++ rest, root, limits, n⟩) :
    OneMeaning (tupleOp carried stacked k) (k ≤ 15) [.simple carried [(k : Int)]] (pushedAlone stacked k) before
      after := by
  have one (small : (k : Int) ≤ 15) : Makes [.simple carried [(k : Int)]] before after :=
    fun limits rest => carriedLeads carriedOpens (Int.natCast_nonneg k) small (done limits rest)
  have other : Makes (pushedAlone stacked k) before after :=
    fun limits rest => pushedLeads stackedOpens (Int.natCast_nonneg k) (by omega) most (done limits rest)
  refine .intro (fun small => one (by omega)) other (fun target d enough => ?_) fun target => ?_
  · exact tupleOpCompletes (by omega) (by unfold maxTupleSize; omega) short long (by omega) enough
  · refine (tupleOpCode carried stacked k).mono ?_
    rintro _ _ _ _ ⟨-, ⟨small, rfl⟩ | rfl⟩
    · exact one small
    · exact other

/- A component is named by at most 254: the emitter also lets 255 through, which the machine does not take. -/
theorem formsShareMeaning :
    (∀ above entries : List Value, 2 ≤ entries.length → entries.length ≤ 255 → above.length ≤ 255 →
      OneMeaning (reverse entries.length above.length) (entries.length ≤ 17 ∧ above.length ≤ 15)
        [.simple .reverse [(entries.length : Int), (above.length : Int)]]
        (pushedFor .revX entries.length above.length) (above ++ entries) (above ++ entries.reverse)) ∧
    (∀ above next : List Value, above.length ≤ 255 → next.length ≤ 255 →
      OneMeaning (blockSwap next.length above.length)
        ((1 ≤ next.length ∧ next.length ≤ 16) ∧ 1 ≤ above.length ∧ above.length ≤ 16)
        [.simple .blkSwap [(next.length : Int), (above.length : Int)]]
        (pushedFor .blkSwX next.length above.length) (above ++ next) (next ++ above)) ∧
    (∀ items : List Value, items.length ≤ 255 →
      OneMeaning (tuple items.length) (items.length ≤ 15) [.simple .tuple [(items.length : Int)]]
        (pushedAlone .tupleVar items.length) items.reverse [.tuple items] ∧
      OneMeaning (untuple items.length) (items.length ≤ 15) [.simple .untuple [(items.length : Int)]]
        (pushedAlone .untupleVar items.length) [.tuple items] items.reverse) ∧
    ∀ (items : List Value) (k : Nat) (v : Value), k ≤ 254 →
      (items[k]? = some v → OneMeaning (index k) (k ≤ 15) [.simple .index [(k : Int)]] (pushedAlone .indexVar k)
        [.tuple items] [v]) ∧
      (k < items.length → OneMeaning (setIndex k) (k ≤ 15) [.simple .setIndex [(k : Int)]]
        (pushedAlone .setIndexVar k) [v, .tuple items] [.tuple (items.set k v)]) := by
  refine ⟨reverseMeaning, blockSwapMeaning, fun items most => ⟨?_, ?_⟩, fun items k v most => ⟨?_, ?_⟩⟩
  · have size : (items.reverse.length : Int) = items.length := by rw [List.length_reverse]
    exact tupleOpMeaning most le_rfl rfl rfl (by rw [size]; rfl) (by rw [size]; rfl) fun _ => tupleOk items
  · have size : (items.reverse.length : Int) = items.length := by rw [List.length_reverse]
    exact tupleOpMeaning most le_rfl rfl rfl (by rw [size]; rfl) (by rw [size]; rfl) fun _ => untupleOk items
  · intro found
    exact tupleOpMeaning most (by decide) rfl rfl rfl rfl fun _ rest root n => indexOk found rest root n
  · intro inside
    exact tupleOpMeaning most (by decide) rfl rfl rfl rfl fun _ rest root n => setIndexOk inside v rest root n

theorem wideBlockMoves : (List.replicate 17 Value.null).length ≤ 255 ∧ ∃ code,
    blockSwap 17 1 (.start {} 18) = .ok ((), (Emitter.start {} 18).write code 18) ∧
      Makes code (.int 5 :: List.replicate 17 .null) (List.replicate 17 .null ++ [.int 5]) :=
  ⟨by decide, (formsShareMeaning.2.1 [.int 5] (List.replicate 17 .null) (by decide) (by decide)).emitted
    (.start {} 18) (by decide)⟩

end Emit

end CellChain
