import Mathlib
import CellChain.Machine.Exec
/-! Laws of runs: how steps follow one another, what a run of code in two parts is, and what becomes of
operands that were pushed for an instruction. -/
namespace CellChain.Machine

variable {α β : Type}

theorem bindRun (x : Step α) (f : α → Step β) (m : Machine) :
    (x >>= f) m = match x m with
      | .ok v m' => f v m'
      | .error h m' => .error h m' := by
  cases first : x m <;> simp only [bind, EStateM.bind, first]

theorem bindOfOk {x : Step α} {m m' : Machine} {v : α} (ok : x m = .ok v m') (f : α → Step β) :
    (x >>= f) m = f v m' := by
  rw [bindRun, ok]

theorem bindOfError {x : Step α} {m m' : Machine} {h : Halt} (bad : x m = .error h m') (f : α → Step β) :
    (x >>= f) m = .error h m' := by
  rw [bindRun, bad]

theorem faultBind (kind : Fault) (f : α → Step β) : (fault kind >>= f) = fault kind := by
  funext m
  exact bindOfError rfl f

@[simp] theorem runNil (m : Machine) : run [] m = .ok () m := by
  simp only [run]; rfl

theorem runConsOk {i : Instr} {m m' : Machine}
    (ok : step i { m with executed := m.executed + 1 } = .ok () m') (rest : List Instr) :
    run (i :: rest) m = run rest m' := by
  have counted : count m = .ok () { m with executed := m.executed + 1 } := rfl
  simp only [run]
  rw [bindOfOk counted]
  have blamed : blaming i (step i) { m with executed := m.executed + 1 } = .ok () m' := by
    simp only [blaming, ok]
  exact bindOfOk blamed _

theorem runConsError {i : Instr} {m m' : Machine} {h : Halt}
    (bad : step i { m with executed := m.executed + 1 } = .error h m') (rest : List Instr) :
    run (i :: rest) m = .error (h.blamedOn i) m' := by
  have counted : count m = .ok () { m with executed := m.executed + 1 } := rfl
  simp only [run]
  rw [bindOfOk counted]
  have blamed : blaming i (step i) { m with executed := m.executed + 1 } = .error (h.blamedOn i) m' := by
    simp only [blaming, bad]
  exact bindOfError blamed _

theorem runSingle (i : Instr) (m : Machine) :
    run [i] m = blaming i (step i) { m with executed := m.executed + 1 } := by
  cases one : step i { m with executed := m.executed + 1 } with
  | ok u m' => simp only [runConsOk one, runNil, blaming, one]
  | error h m' => simp only [runConsError one, blaming, one]

theorem runAppend (first second : List Instr) : run (first ++ second) = (do run first; run second) := by
  funext m
  induction first generalizing m with
  | nil => rw [bindOfOk (runNil m)]; rfl
  | cons i rest ih =>
    rw [List.cons_append]
    cases one : step i { m with executed := m.executed + 1 } with
    | ok u m' => rw [runConsOk one, ih, bindRun, bindRun, runConsOk one]
    | error h m' => rw [runConsError one, bindOfError (runConsError one rest)]

theorem swapAtMap (f : Value → Value) (i j : Nat) (stack : List Value) :
    (swapAt i j stack).map f = swapAt i j (stack.map f) := by
  unfold swapAt
  simp only [List.getElem?_map]
  cases stack[i]? with
  | none => rfl
  | some v =>
    cases stack[j]? with
    | none => rfl
    | some w => simp only [Option.map_some, List.map_set]

theorem reverseMap (f : Value → Value) (n i : Nat) (stack : List Value) :
    (reverseEntries n i stack).map f = reverseEntries n i (stack.map f) := by
  unfold reverseEntries
  fun_induction swapInwards n i stack with
  | case1 n i stack ih => rw [ih, swapAtMap, swapInwards]
  | case2 n i stack few => rw [swapInwards.eq_2 n i _ few]

theorem swapAtSubset (i j : Nat) (stack : List Value) : swapAt i j stack ⊆ stack := by
  unfold swapAt
  split
  · rename_i v w here there
    intro x inside
    rcases List.mem_or_eq_of_mem_set inside with first | rfl
    · rcases List.mem_or_eq_of_mem_set first with own | rfl
      · exact own
      · exact List.mem_of_getElem? there
    · exact List.mem_of_getElem? here
  · exact List.Subset.refl stack

theorem reverseSubset (n i : Nat) (stack : List Value) : reverseEntries n i stack ⊆ stack := by
  unfold reverseEntries
  fun_induction swapInwards n i stack with
  | case1 n i stack ih => exact List.Subset.trans ih (swapAtSubset i (i + n + 1) stack)
  | case2 n i stack few => exact List.Subset.refl stack

theorem swapAtParts (above middle rest : List Value) (v w : Value) :
    swapAt above.length (above.length + middle.length + 1) (above ++ v :: (middle ++ w :: rest)) =
      above ++ w :: (middle ++ v :: rest) := by
  have here : (above ++ v :: (middle ++ w :: rest))[above.length]? = some v := by simp
  have there : (above ++ v :: (middle ++ w :: rest))[above.length + middle.length + 1]? = some w := by
    rw [Nat.add_assoc, List.getElem?_append_right (Nat.le_add_right _ _)]
    simp
  rw [swapAt, here, there]
  simp only
  rw [List.set_append_right _ _ (Nat.le_refl _), Nat.sub_self, List.set_cons_zero, Nat.add_assoc,
    List.set_append_right _ _ (Nat.le_add_right _ _), Nat.add_sub_cancel_left, List.set_cons_succ,
    List.set_append_right _ _ (Nat.le_refl _), Nat.sub_self, List.set_cons_zero]

theorem reverseParts (above entries rest : List Value) :
    reverseEntries entries.length above.length (above ++ (entries ++ rest)) = above ++ (entries.reverse ++ rest) := by
  unfold reverseEntries
  induction entries using List.bidirectionalRec generalizing above rest with
  | nil => rfl
  | singleton v => rfl
  | cons_append v middle w ih =>
    have count : (v :: (middle ++ [w])).length = middle.length + 2 := by simp
    have swapped := swapAtParts above middle rest v w
    have inner := ih (above ++ [w]) (v :: rest)
    rw [List.length_append, List.length_singleton] at inner
    simp only [List.append_assoc, List.cons_append, List.nil_append] at inner
    simp only [count, swapInwards, List.cons_append, List.append_assoc, List.nil_append, swapped, inner,
      List.reverse_cons, List.reverse_append, List.reverse_nil]

theorem reverseEntriesEq {n i : Nat} {stack : List Value} (enough : n + i ≤ stack.length) :
    reverseEntries n i stack = stack.take i ++ ((stack.drop i).take n).reverse ++ stack.drop (n + i) := by
  have parts : stack = stack.take i ++ ((stack.drop i).take n ++ stack.drop (n + i)) := by
    rw [Nat.add_comm, ← List.drop_drop, List.take_append_drop, List.take_append_drop]
  have above : (stack.take i).length = i := by rw [List.length_take]; omega
  have next : ((stack.drop i).take n).length = n := by rw [List.length_take, List.length_drop]; omega
  have reversed := reverseParts (stack.take i) ((stack.drop i).take n) (stack.drop (n + i))
  rwa [above, next, ← parts, ← List.append_assoc] at reversed

theorem swapParts (above next rest : List Value) :
    swapBlocks next.length above.length (above ++ (next ++ rest)) = next ++ (above ++ rest) := by
  have top := reverseParts [] above (next ++ rest)
  have below := reverseParts above.reverse next rest
  have whole := reverseParts [] (above.reverse ++ next.reverse) rest
  simp only [List.nil_append, List.length_nil, List.length_append, List.length_reverse, List.append_assoc,
    List.reverse_append, List.reverse_reverse] at top below whole
  rw [swapBlocks, top, below, Nat.add_comm, whole]

theorem swapBlocksEq {i j : Nat} {stack : List Value} (enough : i + j ≤ stack.length) :
    swapBlocks i j stack = (stack.drop j).take i ++ stack.take j ++ stack.drop (i + j) := by
  have parts : stack = stack.take j ++ ((stack.drop j).take i ++ stack.drop (i + j)) := by
    rw [Nat.add_comm, ← List.drop_drop, List.take_append_drop, List.take_append_drop]
  have above : (stack.take j).length = j := by rw [List.length_take]; omega
  have next : ((stack.drop j).take i).length = i := by rw [List.length_take, List.length_drop]; omega
  have swapped := swapParts (stack.take j) ((stack.drop j).take i) (stack.drop (i + j))
  rwa [above, next, ← parts, ← List.append_assoc] at swapped

theorem smallWord {n : Int} (low : 0 ≤ n) (high : n < 2 ^ 256) : (BitVec.ofInt 256 n).toNat = n.toNat := by
  rw [BitVec.toNat_ofInt]
  congr 1
  exact Int.emod_eq_of_lt low (by exact_mod_cast high)

theorem popSliceOk (t : Slice) (s : List Value) (r : Cell) (l : Capacity) (k : Nat) :
    popSlice ⟨.slice t :: s, r, l, k⟩ = .ok t ⟨s, r, l, k⟩ := rfl

theorem popOperandOk {high : Nat} {x : Word} (small : x.toNat ≤ high) (s : List Value) (r : Cell) (l : Capacity)
    (k : Nat) : popOperand high ⟨.int x :: s, r, l, k⟩ = .ok x.toNat ⟨s, r, l, k⟩ := by
  have popped : popInt ⟨.int x :: s, r, l, k⟩ = .ok x ⟨s, r, l, k⟩ := rfl
  rw [popOperand, bindOfOk popped, if_pos small]
  rfl

theorem popOperandOver {high : Nat} {x : Word} (large : high < x.toNat) (s : List Value) (r : Cell)
    (l : Capacity) (k : Nat) :
    popOperand high ⟨.int x :: s, r, l, k⟩ = .error (.fault .rangeCheck none) ⟨s, r, l, k⟩ := by
  have popped : popInt ⟨.int x :: s, r, l, k⟩ = .ok x ⟨s, r, l, k⟩ := rfl
  rw [popOperand, bindOfOk popped, if_neg (by omega)]
  rfl

theorem runPush (x : Word) (rest : List Instr) (m : Machine) :
    run (.pushInt x :: rest) m = run rest ⟨.int x :: m.stack, m.root, m.limits, m.executed + 1⟩ :=
  runConsOk (by simp only [step]; rfl) rest

theorem twoOperandsOk {x y : Word} {body : Nat → Nat → Step Unit} (one : x.toNat ≤ 255) (two : y.toNat ≤ 255)
    (s : List Value) (r : Cell) (l : Capacity) (k : Nat) :
    (do let j ← popOperand 255; let i ← popOperand 255; body i j) ⟨.int y :: .int x :: s, r, l, k⟩ =
      body x.toNat y.toNat ⟨s, r, l, k⟩ := by
  rw [bindOfOk (popOperandOk two ..), bindOfOk (popOperandOk one ..)]

theorem twoOperandsOver {x y : Word} {body : Nat → Nat → Step Unit} (large : 255 < x.toNat ∨ 255 < y.toNat)
    (s : List Value) (r : Cell) (l : Capacity) (k : Nat) :
    (do let j ← popOperand 255; let i ← popOperand 255; body i j) ⟨.int y :: .int x :: s, r, l, k⟩ =
      .error (.fault .rangeCheck none) ⟨if y.toNat ≤ 255 then s else .int x :: s, r, l, k⟩ := by
  by_cases two : y.toNat ≤ 255
  · rw [bindOfOk (popOperandOk two ..), bindOfError (popOperandOver (by omega) ..), if_pos two]
  · rw [bindOfError (popOperandOver (by omega) ..), if_neg two]

end CellChain.Machine
