import Mathlib
import CellChain.Proofs.Execution
/-! The modelled depth against the stack of the machine. A step is judged by the entries it needs: with as many
it never lacks one, with fewer it never ends well, it never looks below them, and it changes their number as its
effect declares. -/
namespace CellChain

namespace Halt

def isUnderflow : Halt → Bool
  | .fault .stackUnderflow _ => true
  | _ => false

theorem blamedUnderflow (i : Instr) (h : Halt) : (h.blamedOn i).isUnderflow = h.isUnderflow := by
  cases h with
  | fault kind site => cases kind <;> cases site <;> rfl
  | broken => rfl

end Halt

namespace Machine

variable {α β : Type} {sized : Prop} {a b c d : Int}

def above (m : Machine) (bottom : List Value) : Machine := { m with stack := m.stack ++ bottom }

def outcomeAbove (bottom : List Value) : EStateM.Result Halt Machine α → EStateM.Result Halt Machine α
  | .ok x m => .ok x (m.above bottom)
  | .error h m => .error h (m.above bottom)

def lacks : EStateM.Result Halt Machine α → Bool
  | .ok _ _ => false
  | .error h _ => h.isUnderflow

structure Moves (before after : Int) (x : Step α) : Prop where
  frame : ∀ m bottom, before ≤ m.stack.length → x (m.above bottom) = outcomeAbove bottom (x m)
  length : ∀ m v m', before ≤ m.stack.length → x m = .ok v m' →
    (m'.stack.length : Int) = m.stack.length - before + after
  safe : ∀ m h m', before ≤ m.stack.length → x m = .error h m' → h.isUnderflow = false

/- A step needs `need` entries and changes their number by `net`, whatever stack it is given. That it ends well only
with as many as it needs is said where operands have the size of a word: a larger one is taken for a smaller. -/
structure Uses (sized : Prop) (need net : Int) (x : Step α) : Prop where
  frame : ∀ m bottom, lacks (x m) = false → x (m.above bottom) = outcomeAbove bottom (x m)
  length : ∀ m v m', x m = .ok v m' → (m'.stack.length : Int) = m.stack.length + net
  safe : ∀ m, need ≤ m.stack.length → lacks (x m) = false
  least : sized → ∀ m v m', x m = .ok v m' → need ≤ m.stack.length

namespace Uses

theorem moves {x : Step α} (h : Uses sized a b x) {before after : Int} (enough : a ≤ max 0 before)
    (same : after = before + b) : Moves before after x where
  frame m bottom here := h.frame m bottom (h.safe m (by omega))
  length m v m' _ ok := by
    have := h.length m v m' ok
    omega
  safe m f m' here bad := by
    have fine := h.safe m (by omega)
    rwa [bad] at fine

theorem change {x : Step α} (h : Uses sized a b x) (more : a ≤ c) (few : sized → c ≤ max a (max 0 (-b))) :
    Uses sized c b x where
  frame := h.frame
  length := h.length
  safe m enough := h.safe m (by omega)
  least fits m v m' ok := by
    have := h.least fits m v m' ok
    have := h.length m v m' ok
    have := few fits
    omega

theorem imp {x : Step α} {other : Prop} (h : Uses sized a b x) (fits : other → sized) : Uses other a b x :=
  ⟨h.frame, h.length, h.safe, fun given => h.least (fits given)⟩

theorem pure (v : α) : Uses sized 0 0 (Pure.pure v : Step α) where
  frame _ _ _ := rfl
  length m w m' ok := by cases ok; omega
  safe _ _ := rfl
  least _ m _ _ _ := by omega

theorem bind {x : Step α} {f : α → Step β} {n k : Int} (first : Uses sized a b x)
    (second : ∀ v, Uses sized c d (f v)) (needs : n = max a (c - b)) (nets : k = b + d) :
    Uses sized n k (x >>= f) where
  frame m bottom fine := by
    rw [bindRun] at fine ⊢
    rw [bindRun]
    cases one : x m with
    | error h m' =>
      rw [one] at fine
      rw [first.frame m bottom (one ▸ fine), one]
      rfl
    | ok v m' =>
      rw [one] at fine
      rw [first.frame m bottom (by rw [one]; rfl), one]
      exact (second v).frame m' bottom fine
  length m w m' ok := by
    rw [bindRun] at ok
    cases one : x m with
    | error h m' => simp [one] at ok
    | ok v middle =>
      simp only [one] at ok
      have begun := first.length m v middle one
      have ended := (second v).length middle w m' ok
      omega
  safe m enough := by
    rw [bindRun]
    have fine := first.safe m (by omega)
    cases one : x m with
    | error h m' => rwa [one] at fine
    | ok v middle =>
      have begun := first.length m v middle one
      exact (second v).safe middle (by omega)
  least fits m w m' ok := by
    rw [bindRun] at ok
    cases one : x m with
    | error h m' => simp [one] at ok
    | ok v middle =>
      simp only [one] at ok
      have begun := first.length m v middle one
      have had := first.least fits m v middle one
      have left := (second v).least fits middle w m' ok
      omega

theorem throw {h : Halt} (other : h.isUnderflow = false) : Uses sized a b (MonadExcept.throw h : Step α) where
  frame _ _ _ := rfl
  length m v m' ok := by cases ok
  safe _ _ := other
  least _ m v m' ok := by cases ok

theorem fault {kind : Fault} (other : (Halt.fault kind none).isUnderflow = false) :
    Uses sized a b (Machine.fault kind : Step α) :=
  throw other

theorem push (v : Value) : Uses sized 0 1 (Machine.push v) where
  frame _ _ _ := rfl
  length m w m' ok := by cases ok; simp
  safe _ _ := rfl
  least _ m _ _ _ := by omega

theorem pop : Uses sized 1 (-1) Machine.pop where
  frame m bottom fine := by
    unfold Machine.pop above at *
    cases found : m.stack with
    | nil => simp [found, lacks, Halt.isUnderflow] at fine
    | cons v rest => rfl
  length m v m' ok := by
    unfold Machine.pop at ok
    cases found : m.stack with
    | nil => simp [found] at ok
    | cons w rest =>
      simp only [found] at ok
      cases ok
      simp
  safe m enough := by
    unfold Machine.pop
    cases found : m.stack with
    | nil => simp [found] at enough
    | cons w rest => rfl
  least _ m v m' ok := by
    unfold Machine.pop at ok
    cases found : m.stack with
    | nil => simp [found] at ok
    | cons w rest => simp

theorem modify {f : Machine → Machine} (kept : ∀ m, (f m).stack = m.stack)
    (apart : ∀ m bottom, f (m.above bottom) = (f m).above bottom) :
    Uses sized 0 0 (MonadState.modifyGet fun m => ((), f m) : Step Unit) where
  frame m bottom _ := by
    change EStateM.Result.ok () (f (m.above bottom)) = .ok () ((f m).above bottom)
    rw [apart]
  length m v m' ok := by
    cases ok
    rw [kept]; omega
  safe _ _ := rfl
  least _ m _ _ _ := by omega

theorem read {f : Machine → Step β} (apart : ∀ m bottom, f (m.above bottom) = f m)
    (h : ∀ m, Uses sized a b (f m)) : Uses sized a b (get >>= f) where
  frame m bottom fine := by
    change f (m.above bottom) (m.above bottom) = outcomeAbove bottom (f m m)
    rw [apart]
    exact (h m).frame m bottom fine
  length m v m' ok := (h m).length m v m' ok
  safe m enough := (h m).safe m enough
  least fits m v m' ok := (h m).least fits m v m' ok

theorem popInt : Uses sized 1 (-1) Machine.popInt := by
  refine bind (c := 0) (d := 0) pop (fun v => ?_) (by decide) (by decide)
  cases v with
  | int x => exact pure x
  | _ => exact fault rfl

theorem popTuple : Uses sized 1 (-1) Machine.popTuple := by
  refine bind (c := 0) (d := 0) pop (fun v => ?_) (by decide) (by decide)
  cases v with
  | tuple items => exact pure items
  | _ => exact fault rfl

theorem popCell : Uses sized 1 (-1) Machine.popCell := by
  refine bind (c := 0) (d := 0) pop (fun v => ?_) (by decide) (by decide)
  cases v with
  | cell c => exact pure c
  | _ => exact fault rfl

theorem popBuilder : Uses sized 1 (-1) Machine.popBuilder := by
  refine bind (c := 0) (d := 0) pop (fun v => ?_) (by decide) (by decide)
  cases v with
  | builder b => exact pure b
  | _ => exact fault rfl

theorem popSlice : Uses sized 1 (-1) Machine.popSlice := by
  refine bind (c := 0) (d := 0) pop (fun v => ?_) (by decide) (by decide)
  cases v with
  | slice s => exact pure s
  | _ => exact fault rfl

theorem onStack {n k : Nat} {f : List Value → List Value}
    (apart : ∀ s bottom, n ≤ s.length → f (s ++ bottom) = f s ++ bottom)
    (size : ∀ s, n ≤ s.length → (f s).length + n = s.length + k) :
    Uses sized n ((k : Int) - n) (Machine.onStack n f) where
  frame m bottom fine := by
    by_cases here : n ≤ m.stack.length
    · have more : n ≤ (m.stack ++ bottom).length := by simp; omega
      simp only [Machine.onStack, above, if_pos here, if_pos more, apart _ _ here]
      rfl
    · simp [Machine.onStack, if_neg here, lacks, Halt.isUnderflow] at fine
  length m v m' ok := by
    by_cases here : n ≤ m.stack.length
    · simp only [Machine.onStack, if_pos here] at ok
      cases ok
      have := size m.stack here
      simp only
      omega
    · simp [Machine.onStack, if_neg here] at ok
  safe m enough := by
    have here : n ≤ m.stack.length := by omega
    simp [Machine.onStack, if_pos here, lacks]
  least _ m v m' ok := by
    by_cases here : n ≤ m.stack.length
    · omega
    · simp [Machine.onStack, if_neg here] at ok

theorem threeEntries {s : List Value} (h : 3 ≤ s.length) : ∃ x y z rest, s = x :: y :: z :: rest := by
  match s with
  | x :: y :: z :: rest => exact ⟨x, y, z, rest, rfl⟩
  | [] | [_] | [_, _] => simp at h

theorem reverse (n i : Nat) : Uses sized ((n : Int) + i) 0 (Machine.reverse n i) := by
  have moved : Uses sized ((n + i : Nat) : Int) (((n + i : Nat) : Int) - (n + i : Nat)) (Machine.reverse n i) := by
    refine onStack ?_ ?_
    · intro s bottom h
      have one : i ≤ s.length := by omega
      have two : n ≤ (s.drop i).length := by simp; omega
      rw [reverseEntriesEq h, reverseEntriesEq (by rw [List.length_append]; omega), List.take_append_of_le_length one,
        List.drop_append_of_le_length one, List.take_append_of_le_length two, List.drop_append_of_le_length h]
      simp
    · intro s h
      rw [reverseEntriesEq h]
      simp; omega
  rwa [Int.sub_self, Int.natCast_add] at moved

theorem blockSwap (i j : Nat) : Uses sized ((i : Int) + j) 0 (Machine.blockSwap i j) := by
  have moved : Uses sized ((i + j : Nat) : Int) (((i + j : Nat) : Int) - (i + j : Nat)) (Machine.blockSwap i j) := by
    refine onStack ?_ ?_
    · intro s bottom h
      have one : j ≤ s.length := by omega
      have two : i ≤ (s.drop j).length := by simp; omega
      rw [swapBlocksEq h, swapBlocksEq (by rw [List.length_append]; omega), List.take_append_of_le_length one,
        List.drop_append_of_le_length one, List.take_append_of_le_length two, List.drop_append_of_le_length h]
      simp
    · intro s h
      rw [swapBlocksEq h]
      simp; omega
  rwa [Int.sub_self, Int.natCast_add] at moved

theorem tuple (n : Nat) : Uses sized n (1 - n) (Machine.tuple n) := by
  refine onStack (k := 1) ?_ ?_
  · intro s bottom h
    simp [List.take_append_of_le_length, List.drop_append_of_le_length, h]
  · intro s h
    simp; omega

theorem untuple (n : Nat) : Uses sized 1 (n - 1) (Machine.untuple n) := by
  refine bind (c := 0) (d := n) popTuple (fun items => ?_) (by decide) (by omega)
  by_cases full : items.length = n
  · simp only [if_pos full]
    exact {
      frame := fun m bottom _ => by
        change EStateM.Result.ok () _ = EStateM.Result.ok () _
        simp [above]
      length := fun m v m' ok => by cases ok; simp; omega
      safe := fun _ _ => rfl
      least := fun _ m _ _ _ => by omega }
  · simp only [if_neg full]
    exact fault rfl

theorem index (k : Nat) : Uses sized 1 0 (Machine.index k) := by
  refine bind (c := 0) (d := 1) popTuple (fun items => ?_) (by decide) (by decide)
  cases items[k]? with
  | none => exact fault rfl
  | some v => exact push v

theorem setIndex (k : Nat) : Uses sized 2 (-1) (Machine.setIndex k) := by
  refine bind (c := 1) (d := 0) pop (fun v => ?_) (by decide) (by decide)
  refine bind (c := 0) (d := 1) popTuple (fun items => ?_) (by decide) (by decide)
  by_cases inside : (0 : Int) ≤ k ∧ (k : Int) < items.length
  · simp only [withMember, if_pos inside]
    exact push _
  · simp only [withMember, if_neg inside]
    exact throw rfl

theorem store {extend : Builder → Step Builder} (inner : ∀ start, Uses sized a b (extend start))
    (needs : c = max 1 (max a (-b) + 1)) : Uses sized c b (Machine.store extend) := by
  refine bind (c := max a (-b)) (d := b + 1) popBuilder (fun start => ?_) (by omega) (by omega)
  refine bind (c := 0) (d := 1) (inner start) (fun built => ?_) (by omega) rfl
  refine read (fun _ _ => rfl) fun m => ?_
  split
  · exact push _
  · exact fault rfl

theorem storeInt {fits : Word → Prop} [DecidablePred fits] {n : Int} : Uses sized 2 (-1) (Machine.storeInt fits n) := by
  refine store (a := 1) (fun start => ?_) (by decide)
  refine bind (c := 0) (d := 0) popInt (fun x => ?_) (by decide) (by decide)
  split
  · cases start.storeWord? x n.toNat with
    | none => exact throw rfl
    | some built => exact pure built
  · exact fault rfl

theorem storeDict : Uses sized 2 (-1) Machine.storeDict := by
  refine store (a := 1) (fun start => ?_) (by decide)
  refine bind (c := 0) (d := 0) pop (fun v => ?_) (by decide) (by decide)
  cases v with
  | null | cell c => exact pure _
  | int x | tuple items | builder b | slice s => exact fault rfl

theorem pushTwo (v w : Value) : Uses sized 0 2 (do Machine.push v; Machine.push w) :=
  bind (push v) (fun _ => push w) (by decide) (by decide)

theorem load {read : Slice → Option (Value × Slice)} : Uses sized 1 1 (Machine.load read) := by
  refine bind (c := 0) (d := 2) popSlice (fun s => ?_) (by decide) (by decide)
  cases read s with
  | none => exact fault rfl
  | some p => exact pushTwo _ _

theorem immediate {operands : List Int} {k : Nat} {low high : Int} {f : Nat → Step β}
    (h : low ≤ Instr.operand operands k → Instr.operand operands k ≤ high →
      Uses sized a b (f (Instr.operand operands k).toNat)) :
    Uses sized a b (Machine.immediate operands k low high >>= f) := by
  unfold Machine.immediate
  by_cases outside : Instr.operand operands k < low ∨ high < Instr.operand operands k
  · simp only [if_pos outside, faultBind]
    exact fault rfl
  · simp only [if_neg outside, pure_bind]
    exact h (by omega) (by omega)

theorem told {x : Step α} (h : Uses sized a b x) (needs : c = a) (nets : d = b) : Uses sized c d x := by
  rwa [needs, nets]

theorem simple {op : Opcode} {operands : List Int} {pops pushes : Int} (plain : op.stackOperands = false)
    (effect : Instr.effect? (.simple op operands) = some (pops, pushes)) :
    Uses sized pops (pushes - pops) (Machine.simple op operands) := by
  cases op <;> cases effect
  case null | newDict | newC => exact push _
  case drop => exact bind pop (fun _ => pure _) (by decide) (by decide)
  case nip =>
    change Uses sized ((2 : Nat) : Int) (((1 : Nat) : Int) - (2 : Nat))
      (Machine.onStack 2 fun stack => stack.take 1 ++ stack.drop 2)
    refine onStack ?_ ?_
    · intro s bottom h
      have one : 1 ≤ s.length := by omega
      rw [List.take_append_of_le_length one, List.drop_append_of_le_length h, List.append_assoc]
    · intro s h
      simp; omega
  case swap => exact reverse 2 0
  case rot =>
    refine onStack (n := 3) (k := 3) ?_ ?_
    · intro s bottom h
      obtain ⟨x, y, z, rest, rfl⟩ := threeEntries h
      rfl
    · intro s h
      obtain ⟨x, y, z, rest, rfl⟩ := threeEntries h
      rfl
  case rotRev =>
    refine onStack (n := 3) (k := 3) ?_ ?_
    · intro s bottom h
      obtain ⟨x, y, z, rest, rfl⟩ := threeEntries h
      rfl
    · intro s h
      obtain ⟨x, y, z, rest, rfl⟩ := threeEntries h
      rfl
  case reverse => exact immediate fun _ _ => immediate fun _ _ => (reverse _ _).told (by omega) (by omega)
  case blkSwap => exact immediate fun _ _ => immediate fun _ _ => (blockSwap _ _).told (by omega) (by omega)
  case tuple => exact immediate fun _ _ => (tuple _).told (by omega) (by omega)
  case untuple => exact immediate fun _ _ => (untuple _).told rfl (by omega)
  case index => exact immediate fun _ _ => index _
  case setIndex => exact immediate fun _ _ => setIndex _
  case pair => exact tuple 2
  case unpair => exact untuple 2
  case endC => exact bind popBuilder (fun b => push _) (by decide) (by decide)
  case stU | stI => exact storeInt
  case stDict => exact storeDict
  case stRef => exact store (fun b => bind popCell (fun c => pure _) rfl rfl) (by decide)
  case stSlice => exact store (fun b => bind popSlice (fun c => pure _) rfl rfl) (by decide)
  case stBRefR => exact bind popBuilder (fun inner => store (fun b => pure _) rfl) (by decide) (by decide)
  case cToS => exact bind popCell (fun c => push _) (by decide) (by decide)
  case endS =>
    refine bind (c := 0) (d := 0) popSlice (fun s => ?_) (by decide) (by decide)
    split
    · exact pure _
    · exact fault rfl
  case ldU | ldI | ldDict | ldRef | ldSlice => exact load
  case ldRefRToS =>
    refine bind (c := 0) (d := 2) popSlice (fun s => ?_) (by decide) (by decide)
    cases s.ref? with
    | none => exact fault rfl
    | some p => exact pushTwo _ _
  case pushRoot => exact read (fun _ _ => rfl) fun m => push _
  case popRoot => exact bind popCell (fun c => modify (fun _ => rfl) fun _ _ => rfl) (by decide) (by decide)
  all_goals cases plain

theorem blaming {i : Instr} {x : Step Unit} (h : Uses sized a b x) : Uses sized a b (Machine.blaming i x) where
  frame m bottom fine := by
    unfold Machine.blaming at fine ⊢
    cases one : x m with
    | ok w m' =>
      rw [h.frame m bottom (by rw [one]; rfl), one]
      rfl
    | error f m' =>
      have own : lacks (x m) = false := by
        simpa [one, lacks, Halt.blamedUnderflow] using fine
      rw [h.frame m bottom own, one]
      rfl
  length m v m' ok := by
    unfold Machine.blaming at ok
    cases one : x m with
    | error f m'' => simp [one] at ok
    | ok w m'' =>
      simp only [one] at ok
      cases ok
      exact h.length m _ _ one
  safe m enough := by
    have fine := h.safe m enough
    unfold Machine.blaming
    cases one : x m with
    | ok w m' => rfl
    | error f m' => simpa [one, lacks, Halt.blamedUnderflow] using fine
  least fits m v m' ok := by
    unfold Machine.blaming at ok
    cases one : x m with
    | error f m'' => simp [one] at ok
    | ok w m'' => exact h.least fits m _ _ one

theorem counted {x : Step Unit} (h : Uses sized a b x) : Uses sized a b (do Machine.count; x) where
  frame m bottom fine := h.frame { m with executed := m.executed + 1 } bottom fine
  length m v m' ok := h.length { m with executed := m.executed + 1 } v m' ok
  safe m enough := h.safe { m with executed := m.executed + 1 } enough
  least fits m v m' ok := h.least fits { m with executed := m.executed + 1 } v m' ok

theorem runNil : Uses sized 0 0 (run []) := by
  simpa only [run] using pure ()

theorem runOne {i : Instr} (h : Uses sized a b (step i)) : Uses sized a b (run [i]) := by
  have same : run [i] = (do Machine.count; Machine.blaming i (step i)) := by
    funext m
    rw [runSingle]
    rfl
  rw [same]
  exact h.blaming.counted

theorem runAppend {first second : List Instr} {n k : Int} (one : Uses sized a b (run first))
    (two : Uses sized c d (run second)) (needs : n = max a (c - b)) (nets : k = b + d) :
    Uses sized n k (run (first ++ second)) := by
  rw [Machine.runAppend]
  exact bind one (fun _ => two) needs nets

theorem callRef {arguments results : Int} {body : List Instr} (h : Uses sized a b (run body)) :
    Uses sized a b (step (.callRef arguments results body)) := by
  simpa only [step] using h

/- The two operands of a form without immediates are literals pushed just before it, so the whole is judged
at once: either both are accepted and `body` works on them, or the machine halts at the form. -/
theorem runOperands {x y : Word} {op : Opcode} {operands : List Int} {body : Nat → Nat → Step Unit}
    (shape : Machine.simple op operands = do let j ← Machine.popOperand 255; let i ← Machine.popOperand 255; body i j)
    (small : x.toNat ≤ 255 → y.toNat ≤ 255 → Uses sized a b (body x.toNat y.toNat)) :
    Uses sized a b (run [.pushInt x, .pushInt y, .simple op operands]) := by
  have last (m : Machine) : run [.pushInt x, .pushInt y, .simple op operands] m =
      Machine.blaming (.simple op operands) (do
        let j ← Machine.popOperand 255; let i ← Machine.popOperand 255; body i j)
        ⟨.int y :: .int x :: m.stack, m.root, m.limits, m.executed + 1 + 1 + 1⟩ := by
    rw [runPush, runPush, runSingle]
    simp only [step, shape]
  by_cases fits : x.toNat ≤ 255 ∧ y.toNat ≤ 255
  · have same : run [.pushInt x, .pushInt y, .simple op operands] = (do
        Machine.count; Machine.count; Machine.count
        Machine.blaming (.simple op operands) (body x.toNat y.toNat)) := by
      funext m
      rw [last]
      simp only [Machine.blaming, twoOperandsOk fits.1 fits.2]
      rfl
    rw [same]
    exact (small fits.1 fits.2).blaming.counted.counted.counted
  · have large : 255 < x.toNat ∨ 255 < y.toNat := by omega
    have halts (m : Machine) : run [.pushInt x, .pushInt y, .simple op operands] m =
        .error (.fault .rangeCheck (some (.simple op operands)))
          ⟨if y.toNat ≤ 255 then m.stack else .int x :: m.stack, m.root, m.limits, m.executed + 1 + 1 + 1⟩ := by
      rw [last]
      simp only [Machine.blaming, twoOperandsOver large]
      rfl
    refine ⟨?_, ?_, ?_, ?_⟩
    · intro m bottom _
      rw [halts, halts]
      split <;> rfl
    · intro m v m' ok
      rw [halts] at ok
      cases ok
    · intro m _
      rw [halts]
      rfl
    · intro _ m v m' ok
      rw [halts] at ok
      cases ok

theorem runOperand {x : Word} {op : Opcode} {operands : List Int} {high : Nat} {body : Nat → Step Unit}
    (shape : Machine.simple op operands = do let n ← Machine.popOperand high; body n)
    (small : x.toNat ≤ high → Uses sized a b (body x.toNat)) :
    Uses sized a b (run [.pushInt x, .simple op operands]) := by
  have last (m : Machine) : run [.pushInt x, .simple op operands] m =
      Machine.blaming (.simple op operands) (do let n ← Machine.popOperand high; body n)
        ⟨.int x :: m.stack, m.root, m.limits, m.executed + 1 + 1⟩ := by
    rw [runPush, runSingle]
    simp only [step, shape]
  by_cases fits : x.toNat ≤ high
  · have same : run [.pushInt x, .simple op operands] = (do
        Machine.count; Machine.count
        Machine.blaming (.simple op operands) (body x.toNat)) := by
      funext m
      rw [last]
      simp only [Machine.blaming, bindOfOk (popOperandOk fits ..)]
      rfl
    rw [same]
    exact (small fits).blaming.counted.counted
  · have same : run [.pushInt x, .simple op operands] = (do
        Machine.count; Machine.count
        Machine.blaming (.simple op operands) (Machine.fault .rangeCheck)) := by
      funext m
      rw [last]
      simp only [Machine.blaming, bindOfError (popOperandOver (Nat.lt_of_not_le fits) ..)]
      rfl
    rw [same]
    exact (fault rfl : Uses sized a b (Machine.fault .rangeCheck)).blaming.counted.counted

end Uses

end Machine

end CellChain
