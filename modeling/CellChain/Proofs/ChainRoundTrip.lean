import Mathlib
import CellChain.Proofs.Loading
import CellChain.Proofs.Storing
import CellChain.Settings.Basic
/-! Storing and loading are inverse: values that were stored from a position come back when they are loaded
from an equal one. Few enough values must be able to wait at once, since the instructions that rearrange them
take no larger counts than 255. Their bits must be few enough together for machine integers to count them, as those of
any values that a memory holds are. -/
namespace CellChain

open Machine

theorem Settings.validLimits {settings : Settings} (valid : settings.validate = .ok ()) :
    2 ≤ settings.vm.cellRefs ∧ 0 < settings.vm.addressBits ∧ settings.vm.addressBits ≤ settings.vm.cellBits ∧
      settings.vm.dictValueBits ≤ settings.vm.cellBits := by
  unfold validate at valid
  split_ifs at valid
  omega

theorem Settings.validRefs {settings : Settings} (valid : settings.validate = .ok ()) : 2 ≤ settings.vm.cellRefs :=
  (validLimits valid).1

/- Bits behind an offset, and leaves, that machine integers can count. -/
structure Ty.Counted (target : Target) (offset : Int) (types : List Ty) : Prop where
  bits : offset + bitsAll target types ≤ Text.largestInt
  leaves : ((sizesAll target types).length : Int) < Text.largestInt

theorem Ty.Counted.ofSlots {target : Target} {offset : Int} {types : List Ty}
    (bits : offset + bitsAll target types ≤ Text.largestInt) (few : slotsAll types ≤ 254) :
    Counted target offset types := by
  have leaves := (leavesLeSlots target).2 types
  refine ⟨bits, ?_⟩
  simp only [Text.largestInt]
  omega

theorem sizedPositive {ws : List Builder} {sizes : List (Int × Int)} (sized : List.Forall₂ Builder.Sized ws sizes) :
    Position.Positive sizes := by
  induction sized with
  | nil => exact List.forall_mem_nil _
  | cons own _ ih =>
    have bits := own.bits
    have refs := own.refs
    exact List.forall_mem_cons.2 ⟨by omega, ih⟩

theorem Ty.Counted.sizes {target : Target} {offset : Int} {types : List Ty} (counted : Counted target offset types)
    (low : 0 ≤ offset) (positive : Position.Positive (sizesAll target types)) :
    Position.Counted offset 0 (sizesAll target types) := by
  have leaves := counted.leaves
  have most : ((sizesAll target types).map Prod.snd).sum ≤ ((sizesAll target types).map Prod.snd).length • 1 := by
    refine List.sum_le_card_nsmul _ 1 fun n inside => ?_
    obtain ⟨size, found, rfl⟩ := List.mem_map.1 inside
    exact ((sizesRefs target).2 types size found).2
  simp only [List.length_map, nsmul_eq_mul, mul_one] at most
  exact ⟨positive, low, le_rfl, counted.bits, by omega⟩

theorem startHolds {target : Target} {offset : Int} {names : List String} {types : List Ty} {p : Position}
    {b : Builder} (begun : Position.start target offset names types target.cell = .ok p)
    (refs : 2 ≤ target.cellRefs) (counted : Ty.Counted target offset types) {vs : List Value}
    (typed : HaveTypes target types vs) (size : (b.bits.length : Int) = offset) (bare : b.refs = []) :
    Chain.Holds target.cell ⟨b, []⟩ p := by
  obtain ⟨low, high, capacity, bits, none, sizes⟩ := Position.startOk begun
  have reserved := Position.reserveRange p.sizes
  refine ⟨capacity, by rw [bits, ← size], by rw [bits]; exact high, by simp [none, bare], ?_, ?_, by simp⟩
  · change _ ≤ target.cellRefs
    omega
  · rw [bits, none, sizes]
    exact counted.sizes low (sizedPositive ((wiresSized target).2 types vs typed))

theorem sameMarks {target : Target} {limits : Capacity} {types others : List Ty} {p q : Position}
    {marks marks' : List Bool} {stores loads : List Instr} (alike : p.Alike q)
    (stored : Emit.Stored target limits types p marks stores)
    (loaded : Emit.Loaded target limits others q marks' loads) : marks = marks' := by
  obtain ⟨p', placed, done⟩ := stored.placed
  obtain ⟨q', placed', done'⟩ := loaded.placed
  exact Position.placedAlike alike placed done placed' done'

theorem unreadPast {b w : Builder} {offset : Int} (size : (b.bits.length : Int) = offset) (bare : b.refs = []) :
    Slice.unread ⟨(b ++ w).finish, offset.toNat, 0⟩ = w := by
  have past : offset.toNat = b.bits.length := by omega
  change Builder.mk ((b.bits ++ w.bits).drop offset.toNat) ((b.refs ++ w.refs).drop 0) = w
  simp [past, bare]

theorem storedValuesLoad {settings : Settings} (valid : settings.validate = .ok ()) {types : List Ty} {offset : Int}
    {p q r : Position} (begun : Position.ofTypes settings.vm offset types = .ok p) {e e' d d' : Emitter}
    (encoder : e.target = settings.vm) (decoder : d.target = settings.vm)
    (encoded : Emit.storeValues types p e = .ok (q, e')) (decoded : Emit.loadValues types p d = .ok (r, d')) :
    ∃ stores loads, e' = e.write stores e'.depth ∧ d' = d.write loads d'.depth ∧
      ∀ (vs : List Value) (b : Builder), HaveTypes settings.vm types vs → Ty.slotsAll types ≤ 254 →
        offset + Ty.bitsAll settings.vm types ≤ Text.largestInt → (b.bits.length : Int) = offset → b.refs = [] →
        ∃ b' vs', b'.bits.take offset.toNat = b.bits ∧ Value.sameAll vs' vs = true ∧ ∀ rest,
          Leads settings.vm.cell stores (.builder b :: (vs ++ rest)) (.builder b' :: rest) ∧
          ∃ s', s'.isEmpty = true ∧ Leads settings.vm.cell loads
            (.slice ⟨b'.finish, offset.toNat, 0⟩ :: rest) (.slice s' :: (vs'.reverse ++ rest)) := by
  obtain ⟨-, -, -, -, -, listed⟩ := Position.startOk begun
  obtain ⟨stores, _, written, marks, stored⟩ :=
    Emit.storeValuesStored settings.vm.cell listed e q e' encoder encoded
  obtain ⟨loads, _, written', marks', loaded⟩ :=
    Emit.loadValuesLoaded settings.vm.cell types p d r d' decoder decoded
  obtain rfl := sameMarks ⟨rfl, rfl, rfl, rfl⟩ stored loaded
  refine ⟨stores, loads, by rw [written]; rfl, by rw [written']; rfl, ?_⟩
  intro vs b typed few bits size bare
  have small : Within stores := stored.within (by simp only [operandLimit]; omega)
  have holds := startHolds begun (Settings.validRefs valid) (.ofSlots bits few) typed size bare
  have past : offset.toNat = b.bits.length := by omega
  refine ⟨_, Value.rereadAll vs, ?_, Value.rereadAllSame vs, fun rest =>
    ⟨(stored.settles vs b rest typed holds).leads small, loaded.leads vs _ rest typed (unreadPast size bare)⟩⟩
  simp [past]

theorem okOfOption {α : Type} {x : Except Abort α} {a : α} (found : x.toOption = some a) : x = .ok a := by
  cases x with
  | error fault => cases found
  | ok b => exact congrArg Except.ok (Option.some.inj found)

def fourAddresses : List Ty := [.address, .address, .tuple [.bool, .address, .address]]

def zeroSlice : Value := .slice (.ofCell (.mk (List.replicate 267 false) []))

def fourZeros : List Value := [zeroSlice, zeroSlice, .tuple [.int (-1), zeroSlice, zeroSlice]]

theorem fourAddressesLoad : ∃ p s l, Position.ofTypes {} 32 fourAddresses = .ok p ∧
    Emit.storeValues fourAddresses p (Emitter.start {} 4) = .ok s ∧
    Emit.loadValues fourAddresses p (Emitter.start {} 1) = .ok l ∧ s.1.cells = 2 ∧
    ∃ b' vs', b'.bits.take 32 = List.replicate 32 true ∧ Value.sameAll vs' fourZeros = true ∧ ∀ rest,
      Leads ⟨1023, 4⟩ s.2.block.code (.builder ⟨List.replicate 32 true, []⟩ :: (fourZeros ++ rest))
        (.builder b' :: rest) ∧
      ∃ s', s'.isEmpty = true ∧ Leads ⟨1023, 4⟩ l.2.block.code (.slice ⟨b'.finish, 32, 0⟩ :: rest)
        (.slice s' :: (vs'.reverse ++ rest)) := by
  have emitted : (do
      let p ← Position.ofTypes {} 32 fourAddresses
      let s ← Emit.storeValues fourAddresses p (Emitter.start {} 4)
      let _ ← Emit.loadValues fourAddresses p (Emitter.start {} 1)
      .ok s.1.cells).toOption = some 2 := by
    decide +kernel
  obtain ⟨p, begun, emitted⟩ := okOfBind (okOfOption emitted)
  obtain ⟨s, stored, emitted⟩ := okOfBind emitted
  obtain ⟨l, loaded, cells⟩ := okOfBind emitted
  have typed : HaveTypes {} fourAddresses fourZeros := by
    have zero : HasType {} .address zeroSlice := .address (by decide +kernel) rfl
    exact .cons zero (.cons zero (.cons (.tuple (.cons (.bool (.inr rfl)) (.cons zero (.cons zero .nil)))) .nil))
  have valid : Settings.validate {} = .ok () := rfl
  obtain ⟨stores, loads, one, two, holds⟩ := storedValuesLoad valid begun rfl rfl stored loaded
  refine ⟨p, s, l, begun, stored, loaded, Except.ok.inj cells, ?_⟩
  rw [one, two]
  exact holds fourZeros ⟨List.replicate 32 true, []⟩ typed (by decide) (by decide) rfl rfl

end CellChain
