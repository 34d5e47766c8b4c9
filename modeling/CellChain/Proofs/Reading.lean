import Mathlib
import CellChain.Machine.Exec
/-! Reading what was written. Data is appended to a builder and read from the front of a slice; each kind of
data that is written in one piece comes back as it was, and what follows it is still unread. -/
namespace CellChain

def Machine.valueCount (n : Nat) : Nat := 2 ^ n

namespace Word

theorem bitLenIff (x : Word) (n : Nat) : x.bitLen ≤ n ↔ x.toNat < Machine.valueCount n := by
  unfold bitLen Machine.valueCount
  split
  · rename_i zero
    simp [zero]
  · rename_i some
    have positive : x.toNat ≠ 0 := fun zero => some (BitVec.eq_of_toNat_eq zero)
    rw [Nat.add_one_le_iff, Nat.log2_lt positive]

theorem signIff (x : Word) : 0 ≤ x.sign ↔ 0 ≤ x.toInt := by
  unfold sign
  rw [BitVec.msb_eq_toInt]
  split
  · rename_i zero
    simp [zero]
  · by_cases negative : x.toInt < 0
    · simp [negative]
    · simp [negative, Int.not_lt.1 negative]

theorem clearSize {x : Word} (clear : 0 ≤ x.toInt) : (x.toNat : Int) = x.toInt := by
  rw [BitVec.toInt_eq_toNat_cond] at clear ⊢
  split at clear
  · rw [if_pos ‹_›]
  · have bound := x.isLt
    omega

theorem negativeSize {x : Word} (negative : x.toInt < 0) : (x.toNat : Int) = 2 ^ 256 + x.toInt := by
  rw [BitVec.toInt_eq_toNat_cond] at negative ⊢
  split at negative
  · omega
  · rw [if_neg ‹_›]
    push_cast
    ring

theorem powerSize {n : Nat} (small : n < 256) : ((1 : Word) <<< n).toNat = 2 ^ n := by
  have power : 2 ^ n < 2 ^ 256 := Nat.pow_lt_pow_right (by decide) small
  rw [BitVec.toNat_shiftLeft, Nat.shiftLeft_eq]
  change 1 * 2 ^ n % 2 ^ 256 = 2 ^ n
  rw [Nat.one_mul, Nat.mod_eq_of_lt power]

theorem byteBit (x : Word) {i : Nat} (inside : i < 256) :
    (x.bytes.getD (31 - i / 8) 0 >>> (i % 8) &&& 1 == 1) = x.getLsbD i := by
  have own : x.bytes.getD (31 - i / 8) 0 = (x >>> (8 * (i / 8))).setWidth 8 := by
    have byte : 31 - (31 - i / 8) = i / 8 := by omega
    have short : 31 - i / 8 < 32 := by omega
    simp [bytes, List.getD_eq_getElem?_getD, List.getElem?_range short, byte]
  have low (y : BitVec 8) : (y &&& 1 == 1) = y.getLsbD 0 := by
    change (y &&& 1#8 == 1#8) = y.getLsbD 0
    rw [BitVec.and_one_eq_setWidth_ofBool_getLsbD]
    cases y.getLsbD 0 <;> rfl
  have small : i % 8 < 8 := Nat.mod_lt i (by decide)
  rw [low, own, BitVec.getLsbD_ushiftRight, Nat.add_zero, BitVec.getLsbD_setWidth, decide_eq_true small,
    Bool.true_and, BitVec.getLsbD_ushiftRight, Nat.div_add_mod]

end Word

namespace Builder

instance : Append Builder := ⟨fun a b => ⟨a.bits ++ b.bits, a.refs ++ b.refs⟩⟩

@[simp] theorem appendBits (a b : Builder) : (a ++ b).bits = a.bits ++ b.bits := rfl

@[simp] theorem appendRefs (a b : Builder) : (a ++ b).refs = a.refs ++ b.refs := rfl

theorem appendAssoc (a b c : Builder) : (a ++ b) ++ c = a ++ (b ++ c) := by
  change Builder.mk .. = Builder.mk ..
  simp

@[simp] theorem appendEmpty (a : Builder) : a ++ empty = a := by
  change Builder.mk .. = a
  simp [empty]

@[simp] theorem emptyAppend (a : Builder) : empty ++ a = a := rfl

def ofBits (bits : List Bool) : Builder := ⟨bits, []⟩

def ofCell (c : Cell) : Builder := ⟨[], [c]⟩

theorem storeBitsAppend (b : Builder) (bits : List Bool) : b.storeBits bits = b ++ ofBits bits := by
  change _ = Builder.mk ..
  simp [storeBits, ofBits]

theorem storeRefAppend (b : Builder) (c : Cell) : b.storeRef c = b ++ ofCell c := by
  change _ = Builder.mk ..
  simp [storeRef, ofCell]

@[simp] theorem wordBitsLength (x : Word) (n : Nat) : (wordBits x n).length = n := by
  unfold wordBits
  induction n with
  | zero => rfl
  | succ n ih => simp [bitsBelow, ih]

theorem wordBitsSucc (x : Word) {n : Nat} (inside : n < 256) :
    wordBits x (n + 1) = x.getLsbD n :: wordBits x n := by
  rw [wordBits, bitsBelow, Word.byteBit x inside, wordBits]

end Builder

namespace Slice

def unread (s : Slice) : Builder := ⟨s.bits, s.refs⟩

theorem takeFront {s : Slice} {bits later : List Bool} (front : s.bits = bits ++ later) :
    s.take? bits.length = some (bits, { s with bitPos := s.bitPos + bits.length }) := by
  simp [take?, front]

theorem takeUnread {s : Slice} {bits : List Bool} {w : Builder} (front : s.unread = Builder.ofBits bits ++ w) :
    ∃ t, s.take? bits.length = some (bits, t) ∧ t.unread = w := by
  have data : s.bits = bits ++ w.bits := congrArg Builder.bits front
  have links : s.refs = w.refs := congrArg Builder.refs front
  refine ⟨{ s with bitPos := s.bitPos + bits.length }, takeFront data, ?_⟩
  have after : s.cell.bits.drop (s.bitPos + bits.length) = w.bits := by
    rw [← List.drop_drop]
    change s.bits.drop bits.length = w.bits
    simp [data]
  change Builder.mk (s.cell.bits.drop (s.bitPos + bits.length)) s.refs = w
  rw [after, links]

theorem refUnread {s : Slice} {c : Cell} {w : Builder} (front : s.unread = Builder.ofCell c ++ w) :
    ∃ t, s.ref? = some (c, t) ∧ t.unread = w := by
  have data : s.bits = w.bits := congrArg Builder.bits front
  have links : s.refs = c :: w.refs := congrArg Builder.refs front
  refine ⟨{ s with refPos := s.refPos + 1 }, ?_, ?_⟩
  · simp [ref?, links]
  · have after : s.cell.refs.drop (s.refPos + 1) = w.refs := by
      rw [← List.drop_drop]
      change s.refs.drop 1 = w.refs
      simp [links]
    change Builder.mk s.bits (s.cell.refs.drop (s.refPos + 1)) = w
    rw [after, data]

theorem foldBits (x acc : Word) {n : Nat} (width : n ≤ 256) :
    ((Builder.wordBits x n).foldl (fun (y : Word) b => (y <<< 1) + if b then 1 else 0) acc).toNat =
      (acc.toNat * 2 ^ n + x.toNat % 2 ^ n) % 2 ^ 256 := by
  induction n generalizing acc with
  | zero => simp [Builder.wordBits, Builder.bitsBelow, Nat.mod_one, Nat.mod_eq_of_lt acc.isLt]
  | succ n ih =>
    -- The most significant bit comes first, and doubles what was read before it.
    have doubled : ((acc <<< 1) + if x.getLsbD n then (1 : Word) else 0).toNat =
        (acc.toNat * 2 + (x.toNat.testBit n).toNat) % 2 ^ 256 := by
      cases bit : x.toNat.testBit n <;>
        simp [BitVec.getLsbD, bit, BitVec.toNat_add, BitVec.toNat_shiftLeft, Nat.shiftLeft_eq]
    have low : x.toNat % 2 ^ (n + 1) = (x.toNat.testBit n).toNat * 2 ^ n + x.toNat % 2 ^ n := by
      rw [Nat.mod_pow_succ, Nat.toNat_testBit, Nat.add_comm, Nat.mul_comm]
    rw [Builder.wordBitsSucc x (by omega), List.foldl_cons, ih _ (by omega), doubled, low, Nat.add_mod,
      Nat.mod_mul_mod, ← Nat.add_mod]
    congr 1
    ring

theorem readWord {x : Word} {n : Nat} (width : n ≤ 256) :
    (bitsValue (Builder.wordBits x n)).toNat = x.toNat % 2 ^ n := by
  have small : x.toNat % 2 ^ n < 2 ^ 256 :=
    Nat.lt_of_lt_of_le (Nat.mod_lt _ (Nat.two_pow_pos n)) (Nat.pow_le_pow_right (by decide) width)
  rw [bitsValue, foldBits x 0 width]
  change (0 * 2 ^ n + _) % 2 ^ 256 = _
  rw [Nat.zero_mul, Nat.zero_add, Nat.mod_eq_of_lt small]

end Slice

namespace Machine

open Builder Slice

theorem fitsUnsignedIff (x : Word) (n : Int) :
    fitsUnsigned x n ↔ 256 ≤ n ∨ (0 ≤ n ∧ x.toNat < valueCount n.toNat) := by
  unfold fitsUnsigned
  split
  · rename_i wide
    simp [wide]
  · rename_i narrow
    have length := x.bitLenIff n.toNat
    constructor
    · intro short
      exact .inr ⟨by omega, length.1 (by omega)⟩
    · rintro (wide | ⟨low, small⟩)
      · exact absurd wide narrow
      · have short := length.2 small
        omega

theorem fitsSignedIff (x : Word) (n : Int) : fitsSigned x n ↔
    256 ≤ n ∨ (0 < n ∧ -(valueCount (n.toNat - 1) : Int) ≤ x.toInt ∧ x.toInt < valueCount (n.toNat - 1)) := by
  unfold fitsSigned
  by_cases wide : 256 ≤ n
  · simp [wide]
  by_cases none : n ≤ 0
  · simp [wide, none]
  rw [if_neg wide, if_neg none, or_iff_right wide, and_iff_right (by omega)]
  split
  · rename_i clear
    have size := Word.clearSize (x.signIff.1 clear)
    have length := x.bitLenIff (n.toNat - 1)
    constructor
    · intro short
      have small := length.1 (by omega)
      omega
    · rintro ⟨-, below⟩
      have short := length.2 (by omega)
      omega
  · rename_i sign
    have negative : x.toInt < 0 := Int.not_le.1 fun clear => sign (x.signIff.2 clear)
    have size := Word.negativeSize negative
    have bound := x.isLt
    have some : 0 < x.toNat := by
      rw [Nat.pos_iff_ne_zero]
      intro zero
      rw [BitVec.eq_of_toNat_eq (y := (0 : Word)) zero] at negative
      exact absurd negative (by decide)
    have opposite : ((-x).toNat : Int) = -x.toInt := by
      rw [BitVec.toNat_neg, Nat.mod_eq_of_lt (by omega)]
      omega
    have limit := Word.powerSize (n := (n - 1).toNat) (by omega)
    have place : (n - 1).toNat = n.toNat - 1 := by omega
    rw [BitVec.lt_def, limit, place, valueCount]
    omega

theorem signExtendEq (x : Word) (k : Nat) : signExtend x (k + 1 : Nat) =
    if 256 ≤ k + 1 ∨ x.toNat < valueCount k then x else x - (1 : Word) <<< (k + 1) := by
  have length := x.bitLenIff k
  unfold signExtend
  rw [Int.toNat_natCast]
  apply if_congr ?_ rfl rfl
  rw [← length]
  omega

theorem readsUnsigned {x : Word} {n : Nat} (width : n ≤ 256) (fits : x.toNat < valueCount n) :
    bitsValue (wordBits x n) = x := by
  apply BitVec.eq_of_toNat_eq
  rw [readWord width]
  exact Nat.mod_eq_of_lt fits

theorem negativeLow {x : Word} {k : Nat} (width : k + 1 ≤ 256) (negative : x.toInt < 0)
    (fits : -((2 ^ k : Nat) : Int) ≤ x.toInt) :
    x.toNat % 2 ^ (k + 1) + 2 ^ 256 = x.toNat + 2 ^ (k + 1) ∧ 2 ^ k ≤ x.toNat % 2 ^ (k + 1) := by
  obtain ⟨j, total⟩ : ∃ j, 2 ^ 256 = 2 ^ (k + 1) * j := pow_dvd_pow 2 width
  have size := Word.negativeSize negative
  have half : 2 ^ (k + 1) = 2 * 2 ^ k := by rw [pow_succ, Nat.mul_comm]
  have atLeast : 1 ≤ j := by
    rcases Nat.eq_zero_or_pos j with rfl | positive
    · norm_num at total
    · exact positive
  have split : x.toNat = (x.toNat + 2 ^ (k + 1) - 2 ^ 256) + 2 ^ (k + 1) * (j - 1) := by
    rw [Nat.mul_sub, Nat.mul_one, ← total]
    have room := Nat.le_mul_of_pos_right (2 ^ (k + 1)) atLeast
    rw [← total] at room
    omega
  have low : x.toNat % 2 ^ (k + 1) = x.toNat + 2 ^ (k + 1) - 2 ^ 256 := by
    conv_lhs => rw [split]
    rw [Nat.add_mul_mod_self_left]
    apply Nat.mod_eq_of_lt
    have bound := x.isLt
    omega
  omega

theorem readsNegative {x : Word} {k : Nat} (width : k + 1 < 256) (negative : x.toInt < 0)
    (fits : -((2 ^ k : Nat) : Int) ≤ x.toInt) : signExtend (bitsValue (wordBits x (k + 1))) (k + 1 : Nat) = x := by
  have value : (bitsValue (wordBits x (k + 1))).toNat = x.toNat % 2 ^ (k + 1) := readWord (by omega)
  obtain ⟨wraps, large⟩ := negativeLow (by omega) negative fits
  have keeps : ¬(256 ≤ k + 1 ∨ (bitsValue (wordBits x (k + 1))).toNat < valueCount k) := by
    rw [value, valueCount]
    omega
  rw [signExtendEq, if_neg keeps]
  apply BitVec.eq_of_toNat_eq
  have power : 2 ^ (k + 1) < 2 ^ 256 := Nat.pow_lt_pow_right (by decide) width
  rw [BitVec.toNat_sub, Word.powerSize width, value]
  have bound := x.isLt
  omega

theorem readsClear {x : Word} {k : Nat} (width : k + 1 ≤ 256) (clear : ¬x.toInt < 0)
    (fits : x.toInt < ((2 ^ k : Nat) : Int)) : signExtend (bitsValue (wordBits x (k + 1))) (k + 1 : Nat) = x := by
  have size := Word.clearSize (Int.not_lt.1 clear)
  have small : x.toNat < 2 ^ k := by omega
  have same : bitsValue (wordBits x (k + 1)) = x :=
    readsUnsigned width (Nat.lt_trans small (Nat.pow_lt_pow_right (by decide) (Nat.lt_succ_self k)))
  rw [same, signExtendEq, if_pos (.inr small)]

theorem readsSigned {x : Word} {n : Nat} (low : 1 ≤ n) (width : n ≤ 256)
    (above : -(valueCount (n - 1) : Int) ≤ x.toInt) (below : x.toInt < valueCount (n - 1)) :
    signExtend (bitsValue (wordBits x n)) n = x := by
  obtain ⟨k, rfl⟩ : ∃ k, n = k + 1 := ⟨n - 1, by omega⟩
  by_cases negative : x.toInt < 0
  · rcases Nat.lt_or_eq_of_le width with narrow | full
    · exact readsNegative narrow negative above
    · rw [signExtendEq, if_pos (.inl (by omega))]
      apply BitVec.eq_of_toNat_eq
      rw [readWord width, full, Nat.mod_eq_of_lt x.isLt]
  · exact readsClear width negative below

end Machine

end CellChain
