import Mathlib
import CellChain.Proofs.Typing
/-! Reading takes exactly what is written. Whatever bits a slice has, a read that succeeds gives a value in the range
of its width, and what it took off the slice is what that value is written as. -/
namespace CellChain

open Builder

namespace Slice

theorem takeExact {s t : Slice} {n : Nat} {bits : List Bool} (taken : s.take? n = some (bits, t)) :
    bits.length = n ∧ s.unread = ofBits bits ++ t.unread := by
  unfold take? at taken
  split at taken
  · rename_i enough
    cases taken
    refine ⟨List.length_take_of_le enough, ?_⟩
    change Builder.mk s.bits s.refs = Builder.mk (s.bits.take n ++ s.cell.bits.drop (s.bitPos + n)) s.refs
    rw [← List.drop_drop]
    change _ = Builder.mk (s.bits.take n ++ s.bits.drop n) s.refs
    rw [List.take_append_drop]
  · cases taken

theorem refExact {s t : Slice} {c : Cell} (found : s.ref? = some (c, t)) :
    s.unread = Builder.ofCell c ++ t.unread := by
  unfold ref? at found
  cases refs : s.refs with
  | nil => rw [refs] at found; cases found
  | cons first more =>
    rw [refs] at found
    cases found
    change Builder.mk s.bits s.refs = Builder.mk s.bits (c :: s.cell.refs.drop (s.refPos + 1))
    rw [← List.drop_drop]
    change _ = Builder.mk s.bits (c :: s.refs.drop 1)
    rw [refs]
    rfl

end Slice

namespace Builder

theorem wordBitsGet (x : Word) {n i : Nat} (width : n ≤ 256) (inside : i < n) :
    (wordBits x n)[i]? = some (x.getLsbD (n - 1 - i)) := by
  induction n generalizing i with
  | zero => omega
  | succ n ih =>
    rw [wordBitsSucc x (by omega)]
    cases i with
    | zero => simp
    | succ i =>
      rw [List.getElem?_cons_succ, ih (by omega) (by omega)]
      congr 2
      omega

theorem wordBitsOf {bits : List Bool} {x : Word} (width : bits.length ≤ 256)
    (low : ∀ i < bits.length, x.getLsbD i = (BitVec.ofBoolListBE bits).getLsbD i) :
    wordBits x bits.length = bits := by
  apply List.ext_getElem?
  intro i
  by_cases inside : i < bits.length
  · have back : bits.length - 1 - (bits.length - 1 - i) = i := by omega
    rw [wordBitsGet x width inside, low _ (by omega), BitVec.getLsbD_ofBoolListBE, back,
      List.getD_eq_getElem bits false inside, List.getElem?_eq_getElem inside]
    simp only [Option.some.injEq, Bool.and_eq_right_iff_imp, decide_eq_true_eq]
    omega
  · rw [List.getElem?_eq_none (by simpa using inside), List.getElem?_eq_none (by simpa using inside)]

theorem unsignedOf {bits : List Bool} (width : bits.length ≤ 256) :
    ∃ x : Word, wordBits x bits.length = bits ∧ x.toNat < Machine.valueCount bits.length := by
  refine ⟨(BitVec.ofBoolListBE bits).setWidth 256, wordBitsOf width ?_, ?_⟩
  · intro i inside
    rw [BitVec.getLsbD_setWidth, decide_eq_true (by omega), Bool.true_and]
  · rw [BitVec.toNat_setWidth_of_le width]
    exact (BitVec.ofBoolListBE bits).isLt

theorem signedOf {bits : List Bool} (width : bits.length ≤ 256) :
    ∃ x : Word, wordBits x bits.length = bits ∧ -(Machine.valueCount (bits.length - 1) : Int) ≤ x.toInt ∧
      x.toInt < Machine.valueCount (bits.length - 1) := by
  refine ⟨(BitVec.ofBoolListBE bits).signExtend 256, wordBitsOf width ?_, ?_⟩
  · intro i inside
    rw [BitVec.getLsbD_signExtend, decide_eq_true (by omega), Bool.true_and, if_pos inside]
  · rw [BitVec.toInt_signExtend_of_le width]
    have least := BitVec.le_toInt (BitVec.ofBoolListBE bits)
    have most := @BitVec.toInt_lt _ (BitVec.ofBoolListBE bits)
    have power : (Machine.valueCount (bits.length - 1) : Int) = 2 ^ (bits.length - 1) := by
      simp [Machine.valueCount]
    rw [power]
    exact ⟨least, most⟩

end Builder

namespace Machine

theorem readBitsExact {s t : Slice} {n : Int} {bits : List Bool} (ok : readBits n s = some (bits, t)) :
    (bits.length : Int) = n ∧ s.unread = ofBits bits ++ t.unread := by
  unfold readBits at ok
  split at ok
  · cases ok
  · obtain ⟨size, front⟩ := Slice.takeExact ok
    exact ⟨by omega, front⟩

theorem readUnsignedExact {s t : Slice} {v : Value} {n : Int} (most : n ≤ 256)
    (ok : readUnsigned n s = some (v, t)) :
    ∃ x, v = .int x ∧ x.toNat < valueCount n.toNat ∧ s.unread = ofBits (wordBits x n.toNat) ++ t.unread := by
  obtain ⟨⟨bits, t'⟩, taken, same⟩ := Option.map_eq_some_iff.1 ok
  cases same
  obtain ⟨rfl, front⟩ := readBitsExact taken
  have narrow : bits.length ≤ 256 := by omega
  obtain ⟨x, spelt, fits⟩ := unsignedOf narrow
  have value : Slice.bitsValue bits = x := by
    rw [← spelt]
    exact readsUnsigned narrow fits
  rw [Int.toNat_natCast]
  exact ⟨x, by rw [value], fits, by rw [spelt, front]⟩

theorem readSignedExact {s t : Slice} {v : Value} {n : Int} (least : 1 ≤ n) (most : n ≤ 256)
    (ok : readSigned n s = some (v, t)) :
    ∃ x, v = .int x ∧ -(valueCount (n.toNat - 1) : Int) ≤ x.toInt ∧ x.toInt < valueCount (n.toNat - 1) ∧
      s.unread = ofBits (wordBits x n.toNat) ++ t.unread := by
  obtain ⟨⟨bits, t'⟩, taken, same⟩ := Option.map_eq_some_iff.1 ok
  cases same
  obtain ⟨rfl, front⟩ := readBitsExact taken
  have narrow : bits.length ≤ 256 := by omega
  obtain ⟨x, spelt, above, below⟩ := signedOf narrow
  have value : signExtend (Slice.bitsValue bits) bits.length = x := by
    conv_lhs => rw [← spelt]
    rw [wordBitsLength]
    exact readsSigned (by omega) narrow above below
  rw [Int.toNat_natCast]
  exact ⟨x, by rw [value], above, below, by rw [spelt, front]⟩

theorem readRefExact {s t : Slice} {v : Value} (ok : readRef s = some (v, t)) :
    ∃ c, v = .cell c ∧ s.unread = ofCell c ++ t.unread := by
  obtain ⟨⟨c, t'⟩, found, same⟩ := Option.map_eq_some_iff.1 ok
  cases same
  exact ⟨c, rfl, Slice.refExact found⟩

theorem readDictExact {s t : Slice} {v : Value} (ok : readDict s = some (v, t)) :
    v.IsRoot ∧ s.unread = rootWire v ++ t.unread := by
  unfold readDict at ok
  split at ok
  · rename_i middle taken
    obtain ⟨-, front⟩ := Slice.takeExact taken
    obtain ⟨c, rfl, after⟩ := readRefExact ok
    exact ⟨.cell c, by rw [front, after, rootWire, appendAssoc]⟩
  · rename_i bits middle other taken
    cases ok
    obtain ⟨size, front⟩ := Slice.takeExact taken
    obtain ⟨bit, rfl⟩ := List.length_eq_one_iff.1 size
    cases bit with
    | false => exact ⟨.none, front⟩
    | true => exact absurd rfl other
  · cases ok

theorem readSliceExact {s t : Slice} {v : Value} {n : Int} (ok : readSlice n s = some (v, t)) :
    ∃ data : Slice, v = .slice data ∧ (data.bits.length : Int) = n ∧ data.refs = [] ∧
      s.unread = data.unread ++ t.unread := by
  obtain ⟨⟨bits, t'⟩, taken, same⟩ := Option.map_eq_some_iff.1 ok
  cases same
  obtain ⟨size, front⟩ := readBitsExact taken
  exact ⟨_, rfl, size, rfl, front⟩

end Machine

end CellChain
