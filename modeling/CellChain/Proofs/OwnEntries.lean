import Mathlib
import CellChain.Proofs.CodeNeeds
import CellChain.Proofs.Groups
/-! Code that keeps to entries of its own. Whatever lies below them on the stack when it is emitted, it is told how
many of them there are; storing values keeps to the values and their builder, so turning a record into a builder
keeps to the record. -/
namespace CellChain

namespace Emit

variable {α β : Type} {target : Target} {b : Int}

/- The code of `x` works on `b` entries, at whatever depth it is emitted, and makes no call. Its result and how many
entries it leaves have `Q`. -/
def Stays (target : Target) (b : Int) (x : Emit α) (Q : α → Int → Prop) : Prop :=
  Writes target x fun _ a code _ => ∃ b', needOf code ≤ b ∧ netOf code = b' - b ∧ callsOf code = [] ∧ Q a b'

namespace Stays

theorem mono {x : Emit α} {Q R : α → Int → Prop} (h : Stays target b x Q) (weaker : ∀ a b', Q a b' → R a b') :
    Stays target b x R := by
  refine Writes.mono h ?_
  rintro _ a code _ ⟨b', need, net, none, holds⟩
  exact ⟨b', need, net, none, weaker a b' holds⟩

theorem silent {x : Emit α} {R : α → Prop} (h : Writes target x fun _ a code _ => code = [] ∧ R a) (low : 0 ≤ b) :
    Stays target b x fun a b' => b' = b ∧ R a := by
  refine h.mono ?_
  rintro _ a _ _ ⟨rfl, holds⟩
  exact ⟨b, low, by simp, by simp [callsOf], rfl, holds⟩

theorem pure {a : α} {Q : α → Int → Prop} (h : Q a b) (low : 0 ≤ b) : Stays target b (Pure.pure a) Q :=
  Writes.pure fun _ => ⟨b, low, by simp, by simp [callsOf], h⟩

theorem bind {x : Emit α} {f : α → Emit β} {Q : α → Int → Prop} {R : β → Int → Prop} (first : Stays target b x Q)
    (second : ∀ a m, Q a m → Stays target m (f a) R) : Stays target b (x >>= f) R := by
  refine Writes.bind first ?_
  rintro _ a code _ ⟨m, need, net, none, holds⟩
  refine Writes.mono (second a m holds) ?_
  rintro _ c code' _ ⟨b', need', net', none', last⟩ _
  refine ⟨b', ?_, ?_, by rw [callsAppend, none, none', List.append_nil], last⟩
  · rw [needAppend]
    omega
  · rw [netAppend]
    omega

theorem andThen {x : Emit α} {f : α → Emit β} {m : Int} {R : β → Int → Prop}
    (first : Stays target b x fun _ b' => b' = m) (second : ∀ a, Stays target m (f a) R) :
    Stays target b (x >>= f) R := by
  refine bind first ?_
  intro a _ here
  rw [here]
  exact second a

theorem quietThen {x : Emit α} {f : α → Emit β} {P : α → Prop} {R : β → Int → Prop}
    (first : Writes target x fun _ a code _ => code = [] ∧ P a) (low : 0 ≤ b)
    (second : ∀ a, P a → Stays target b (f a) R) : Stays target b (x >>= f) R := by
  refine bind (silent first low) ?_
  rintro a _ ⟨rfl, holds⟩
  exact second a holds

theorem instr {i : Instr} {pops pushes after : Int} (effect : i.effect? = some (pops, pushes)) (low : 0 ≤ b)
    (enough : pops ≤ b) (moves : b + (pushes - pops) = after) (left : 0 ≤ after) :
    Stays target b (Emit.instr i) fun _ b' => b' = after := by
  obtain ⟨own, change⟩ := Instr.ofEffect effect
  refine Writes.instr fun _ _ _ _ _ => ⟨after, ?_, ?_, ?_, rfl⟩
  · simp only [needOf, own, change]
    omega
  · simp only [netCons, netNil, change]
    omega
  · cases i with
    | callRef => cases effect
    | pushInt | simple => simp [callsOf, Instr.calls]

theorem op {o : Opcode} {operands : List Int} {pops pushes after : Int}
    (effect : Instr.effect? (.simple o operands) = some (pops, pushes)) (low : 0 ≤ b) (enough : pops ≤ b)
    (moves : b + (pushes - pops) = after) (left : 0 ≤ after) :
    Stays target b (Emit.op o operands) fun _ b' => b' = after :=
  instr effect low enough moves left

theorem opThen {o : Opcode} {operands : List Int} {pops pushes : Int} {f : Unit → Emit β} {R : β → Int → Prop}
    (effect : Instr.effect? (.simple o operands) = some (pops, pushes)) (low : 0 ≤ b) (enough : pops ≤ b)
    (left : 0 ≤ b + (pushes - pops)) (rest : Stays target (b + (pushes - pops)) (f ()) R) :
    Stays target b (Emit.op o operands >>= f) R :=
  andThen (op effect low enough rfl left) fun _ => rest

theorem pushThen {n : Int} {f : Unit → Emit β} {R : β → Int → Prop} (low : 0 ≤ b)
    (rest : Stays target (b + 1) (f ()) R) : Stays target b (Emit.pushSmall n >>= f) R :=
  andThen (instr (i := .pushInt _) rfl low low rfl (by omega)) fun _ => rest

theorem checkThen {condition : Prop} [Decidable condition] {construct : String} {cause : Abort.Cause}
    {f : Unit → Emit β} {R : β → Int → Prop} (low : 0 ≤ b) (rest : condition → Stays target b (f ()) R) :
    Stays target b (Emit.check condition construct cause >>= f) R :=
  quietThen (P := fun _ => condition) (.check fun holds _ => ⟨rfl, holds⟩) low fun _ => rest

theorem liftThen {x : Except Abort α} {f : α → Emit β} {R : β → Int → Prop} (low : 0 ≤ b)
    (rest : ∀ a, Stays target b (f a) R) : Stays target b (Emit.lift x >>= f) R :=
  quietThen (P := fun _ => True) (.lift fun _ _ _ => ⟨rfl, trivial⟩) low fun a _ => rest a

end Stays

theorem reverseStays {n i : Int} (low : 0 ≤ b) (enough : n + i ≤ b) :
    Stays target b (reverse n i) fun _ b' => b' = b := by
  refine .checkThen low fun two => ?_
  split
  · have effect : Instr.effect? (.simple .reverse [n, i]) = some (n + i, n + i) := rfl
    exact .op effect low enough (by omega) low
  · have effect : Instr.effect? (.simple .revX [n, i]) = some (n + i + 2, n + i) := rfl
    exact .pushThen low (.pushThen (by omega) (.op effect (by omega) (by omega) (by omega) low))

theorem arrangeStays {n : Nat} (enough : n ≤ b) : Stays target b (arrange n) fun _ b' => b' = b := by
  unfold arrange
  split
  · exact reverseStays (by omega) (by omega)
  · exact .pure rfl (by omega)

theorem blockSwapStays {i j : Int} (first : 0 ≤ i) (second : 0 ≤ j) (enough : i + j ≤ b) :
    Stays target b (blockSwap i j) fun _ b' => b' = b := by
  have low : 0 ≤ b := by omega
  unfold blockSwap
  split
  · exact .pure rfl low
  · split
    · exact .op rfl low (by omega) (by omega) low
    · split
      · have effect : Instr.effect? (.simple .blkSwap [i, j]) = some (i + j, i + j) := rfl
        exact .op effect low enough (by omega) low
      · have effect : Instr.effect? (.simple .blkSwX [i, j]) = some (i + j + 2, i + j) := rfl
        exact .pushThen low (.pushThen (by omega) (.op effect (by omega) (by omega) (by omega) low))

theorem untupleStays (k : Nat) (enough : 1 ≤ b) : Stays target b (untuple k) fun _ b' => b' = b - 1 + k := by
  have low : 0 ≤ b := by omega
  have short : Instr.effect? (.simple .untuple [(k : Int)]) = some (1, (k : Int)) := rfl
  have long : Instr.effect? (.simple .untupleVar [(k : Int)]) = some (2, (k : Int)) := rfl
  refine .checkThen low fun _ => ?_
  split
  · exact .op short low enough (by omega) (by omega)
  · exact .pushThen low (.op long (by omega) (by omega) (by omega) (by omega))

theorem expandStays (k : Nat) (enough : 2 ≤ b) : Stays target b (Store.expand k) fun _ b' => b' = b + (k - 1) := by
  refine .opThen rfl (by omega) enough (by omega) (.andThen (untupleStays k (by omega)) fun _ => ?_)
  split
  · refine (reverseStays (by omega) (by omega)).mono ?_
    intro _ b' same
    omega
  · exact .pure (by omega) (by omega)

theorem breakStays {pending : Int} (low : 0 ≤ pending) (enough : pending + 1 ≤ b) :
    Stays target b (Store.breakCell pending) fun _ b' => b' = b + 1 :=
  .andThen (blockSwapStays low (by decide) enough) fun _ => .op rfl (by omega) (by omega) (by omega) (by omega)

theorem storeLeafStays (t : Ty) (enough : 2 ≤ b) : Stays target b (Store.leaf t) fun _ b' => b' = b - 1 := by
  have low : 0 ≤ b := by omega
  cases t with
  | integer signed bits => cases signed <;> exact .op rfl low enough (by omega) (by omega)
  | bool | mapping | bytes | cell | address => exact .op rfl low enough (by omega) (by omega)
  | array element =>
    exact .opThen rfl low enough (by omega) (.opThen rfl (by omega) (by omega) (by omega)
      (.opThen rfl (by omega) (by omega) (by omega) (.opThen rfl (by omega) (by omega) (by omega)
        (.opThen rfl (by omega) (by omega) (by omega) (.op rfl (by omega) (by omega) (by omega) (by omega))))))
  | struct | named | tuple | other => exact Writes.abort

theorem foldStays (n : Nat) (enough : (n : Int) + 1 ≤ b) : Stays target b (Store.fold n) fun _ b' => b' = b - n := by
  induction n generalizing b with
  | zero => exact .pure (by omega) (by omega)
  | succ n ih =>
    refine .opThen rfl (by omega) (by omega) (by omega) ((ih (by omega)).mono ?_)
    intro _ b' after
    omega

theorem storeStays :
    (∀ (t : Ty) (s : Store.State), 1 ≤ s.pending → 1 ≤ s.builders →
      Stays target (s.pending + s.builders) (Store.value t s) fun s' b' =>
        b' = s'.pending + s'.builders ∧ s'.pending = s.pending - 1 ∧ 1 ≤ s'.builders) ∧
    ∀ (types : List Ty) (s : Store.State), (types.length : Int) ≤ s.pending → 1 ≤ s.builders →
      Stays target (s.pending + s.builders) (Store.values types s) fun s' b' =>
        b' = s'.pending + s'.builders ∧ s'.pending = s.pending - types.length ∧ 1 ≤ s'.builders := by
  apply Ty.groupInduction
  · intro t single s waiting begun
    rw [Store.valueSingle single]
    refine .liftThen (by omega) fun p => ?_
    cases opened : p.1 with
    | true =>
      refine .andThen (breakStays (by omega) (by omega)) fun _ => .andThen (storeLeafStays t (by omega)) fun _ => ?_
      exact .pure ⟨by simp only [if_true]; omega, rfl, by simp only [if_true]; omega⟩ (by omega)
    | false =>
      refine .andThen (.pure rfl (by omega)) fun _ => .andThen (storeLeafStays t (by omega)) fun _ => ?_
      exact .pure ⟨by simp only [Bool.false_eq_true, if_false]; omega, rfl, begun⟩ (by omega)
  · intro t types parts ih s waiting begun
    rw [Store.valueGroup parts]
    refine .andThen (expandStays types.length (by omega)) fun _ => ?_
    have total : s.pending + s.builders + ((types.length : Int) - 1) =
        s.pending + (types.length - 1) + s.builders := by omega
    rw [total]
    refine (ih { s with pending := s.pending + (types.length - 1) } (by simp only; omega) begun).mono ?_
    rintro s' b' ⟨left, rest, some⟩
    exact ⟨left, by simp only at rest; omega, some⟩
  · intro s waiting begun
    simp only [Store.values]
    exact .pure ⟨rfl, by simp, begun⟩ (by simp at waiting; omega)
  · intro t rest head tail s waiting begun
    simp only [Store.values, List.length_cons] at waiting ⊢
    refine .bind (head s (by omega) begun) ?_
    rintro s' _ ⟨rfl, one, some⟩
    refine (tail s' (by omega) some).mono ?_
    rintro s'' b' ⟨left, others, last⟩
    exact ⟨left, by omega, last⟩

theorem storeValuesStays (types : List Ty) (p : Position) :
    Stays target (types.length + 1) (storeValues types p) fun _ b' => b' = 1 := by
  refine .quietThen (P := fun _ => True) (.depth fun _ => ⟨rfl, trivial⟩) (by omega) fun before _ => ?_
  refine .checkThen (by omega) fun _ => .bind (storeStays.2 types ⟨p, types.length, 1⟩ le_rfl le_rfl) ?_
  rintro s _ ⟨rfl, stored, some⟩
  have none : s.pending = 0 := by simpa using stored
  refine .checkThen (by omega) fun _ => .checkThen (by omega) fun _ => ?_
  refine .andThen (foldStays (s.builders - 1).toNat (by omega)) fun _ => ?_
  refine .quietThen (P := fun _ => True) (.ensureDepth ⟨rfl, trivial⟩) (by omega) fun _ _ => ?_
  exact .pure (by omega) (by omega)

theorem conversionStays (r : Record) (limits : Target) :
    Stays target 1 (r.conversion limits) fun _ b' => b' = 1 := by
  refine .andThen (untupleStays r.types.length le_rfl) fun _ => .andThen (arrangeStays (by omega)) fun _ => ?_
  refine .andThen (.op rfl (by omega) (by omega) rfl (by omega)) fun _ => .liftThen (by omega) fun p => ?_
  have size : 1 - 1 + (r.types.length : Int) + (1 - 0) = r.types.length + 1 := by omega
  rw [size]
  exact storeValuesStays r.types p

end Emit

end CellChain
