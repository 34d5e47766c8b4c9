import Mathlib
import CellChain.Proofs.ExactReading
import CellChain.Proofs.Loading
import CellChain.Proofs.Storing
/-! Integers in cells. An instruction that stores integers of `n` bits takes those in the range of its width and no
others; it appends `n` bits, and the instruction that loads them gives the same integer back, whatever stands before
the bits and behind them. There are no other bits: any `n` of them are those of an integer in range. -/
namespace CellChain

def Word.lowBits (x : Word) (n : Nat) : List Bool := List.ofFn fun i : Fin n => x.getLsbD (n - 1 - i)

theorem Builder.wordBitsLow (x : Word) {n : Nat} (width : n ≤ 256) : wordBits x n = x.lowBits n := by
  apply List.ext_getElem?
  intro i
  by_cases inside : i < n
  · rw [wordBitsGet x width inside, Word.lowBits, List.getElem?_ofFn, dif_pos inside]
  · rw [List.getElem?_eq_none (by simpa using inside), List.getElem?_eq_none (by simpa [Word.lowBits] using inside)]

namespace Machine

/- Storing and loading integers of `n` bits, and which words these are. A word in range is appended to any builder with
room for it, and is read again at that place of any cell; another one is refused. -/
structure Inverse (storing loading : Opcode) (n : Nat) (InRange : Word → Prop) : Prop where
  stores : ∀ {x : Word}, InRange x → ∀ (limits : Capacity) (b : Builder), withinLimits limits b →
    (limits.bits < 0 ∨ (b.bits.length : Int) + n ≤ limits.bits) → ∀ (rest : List Value) (root : Cell) (k : Nat),
      run [.simple storing [n]] ⟨.builder b :: .int x :: rest, root, limits, k⟩ =
        .ok () ⟨.builder ⟨b.bits ++ x.lowBits n, b.refs⟩ :: rest, root, limits, k + 1⟩
  refuses : ∀ {x : Word}, ¬InRange x → ∀ (limits : Capacity) (b : Builder) (rest : List Value) (root : Cell) (k : Nat),
    run [.simple storing [n]] ⟨.builder b :: .int x :: rest, root, limits, k⟩ =
      .error (.fault .rangeCheck (some (.simple storing [n]))) ⟨rest, root, limits, k + 1⟩
  loads : ∀ {x : Word}, InRange x → ∀ (before later : List Bool) (refs : List Cell) (pos : Nat) (limits : Capacity)
      (rest : List Value) (root : Cell) (k : Nat),
    run [.simple loading [n]]
        ⟨.slice ⟨.mk (before ++ x.lowBits n ++ later) refs, before.length, pos⟩ :: rest, root, limits, k⟩ =
      .ok () ⟨.slice ⟨.mk (before ++ x.lowBits n ++ later) refs, before.length + n, pos⟩ :: .int x :: rest, root,
        limits, k + 1⟩
  spelt : ∀ bits : List Bool, bits.length = n → ∃ x, InRange x ∧ x.lowBits n = bits

theorem inverseOf {storing loading : Opcode} {n : Nat} {InRange fits : Word → Prop} [DecidablePred fits]
    {value : List Bool → Word} {read : Slice → Option (Value × Slice)} (most : n ≤ 256)
    (stored : simple storing [n] = storeInt fits n) (loaded : simple loading [n] = load read)
    (reads : ∀ {s t : Slice} {bits : List Bool}, readBits n s = some (bits, t) → read s = some (.int (value bits), t))
    (ranges : ∀ x, fits x ↔ InRange x) (again : ∀ x, InRange x → value (Builder.wordBits x n) = x)
    (spelt : ∀ bits : List Bool, bits.length = n → ∃ x, InRange x ∧ Builder.wordBits x n = bits) :
    Inverse storing loading n InRange := by
  refine ⟨?stores, ?refuses, ?loads, ?spelt⟩
  case stores =>
    intro x fit limits b within room rest root k
    have whole : withinLimits limits (b ++ .ofBits (Builder.wordBits x n)) := by
      refine ⟨?_, by simpa [Builder.ofBits] using within.2⟩
      simp only [Builder.appendBits, Builder.ofBits, List.length_append, Builder.wordBitsLength]
      omega
    have done : simple storing [n] ⟨.builder b :: .int x :: rest, root, limits, k + 1⟩ =
        .ok () ⟨.builder (b.storeBits (x.lowBits n)) :: rest, root, limits, k + 1⟩ := by
      rw [stored, storeIntOk ((ranges x).2 fit) (by omega) whole, ← Builder.storeBitsAppend, Int.toNat_natCast,
        Builder.wordBitsLow x most]
    simp only [runSingle, step, blaming, done, Builder.storeBits]
  case refuses =>
    intro x unfit limits b rest root k
    have refused : simple storing [n] ⟨.builder b :: .int x :: rest, root, limits, k + 1⟩ =
        .error (.fault .rangeCheck none) ⟨rest, root, limits, k + 1⟩ := by
      rw [stored]
      exact storeIntRefused (fun fit => unfit ((ranges x).1 fit)) b rest root _
    simp only [runSingle, step, blaming, refused, Halt.blamedOn]
  case loads =>
    intro x fit before later refs pos limits rest root k
    have front : Slice.bits ⟨.mk (before ++ x.lowBits n ++ later) refs, before.length, pos⟩ = x.lowBits n ++ later := by
      simp [Slice.bits, Cell.bits]
    have taken := Slice.takeFront front
    rw [← Builder.wordBitsLow x most, Builder.wordBitsLength] at taken
    have found := reads (s := ⟨.mk (before ++ Builder.wordBits x n ++ later) refs, before.length, pos⟩)
      (by rw [readBits, if_neg (by omega), Int.toNat_natCast, taken])
    rw [again x fit] at found
    simp only [runSingle, step, blaming, loaded, ← Builder.wordBitsLow x most, loadOk found]
  case spelt =>
    intro bits size
    obtain ⟨x, fit, same⟩ := spelt bits size
    exact ⟨x, fit, by rw [← Builder.wordBitsLow x most, same]⟩

theorem unsignedInverse {n : Nat} (most : n ≤ 256) : Inverse .stU .ldU n fun x => n = 256 ∨ x.toNat < 2 ^ n := by
  have below {x : Word} (fit : n = 256 ∨ x.toNat < 2 ^ n) : x.toNat < 2 ^ n := by
    rcases fit with rfl | small
    · exact x.isLt
    · exact small
  have stored : simple .stU [n] = storeInt (fitsUnsigned · n) n := rfl
  have loaded : simple .ldU [n] = load (readUnsigned n) := rfl
  refine inverseOf most stored loaded (fun taken => by rw [readUnsigned, taken]; rfl) (fun x => ?_)
    (fun x fit => readsUnsigned most (below fit)) (fun bits size => ?_)
  · have small : x.toNat < valueCount (n : Int).toNat ↔ x.toNat < 2 ^ n := Iff.rfl
    rw [fitsUnsignedIff, small]
    omega
  · have narrow : bits.length ≤ 256 := by omega
    obtain ⟨x, same, small⟩ := Builder.unsignedOf narrow
    rw [size] at same small
    exact ⟨x, .inr small, same⟩

theorem signedInverse {n : Nat} (least : 1 ≤ n) (most : n ≤ 256) :
    Inverse .stI .ldI n fun x => -(2 ^ (n - 1)) ≤ x.toInt ∧ x.toInt < 2 ^ (n - 1) := by
  have power : (valueCount (n - 1) : Int) = 2 ^ (n - 1) := by simp [valueCount]
  have stored : simple .stI [n] = storeInt (fitsSigned · n) n := rfl
  have loaded : simple .ldI [n] = load (readSigned n) := rfl
  refine inverseOf most stored loaded (fun taken => by rw [readSigned, taken]; rfl) (fun x => ?_)
    (fun x fit => readsSigned least most (power ▸ fit.1) (power ▸ fit.2)) (fun bits size => ?_)
  · -- In the whole width nothing is checked, and no word lies outside the range.
    rw [fitsSignedIff, Int.toNat_natCast, power]
    constructor
    · rintro (wide | ⟨-, fit⟩)
      · obtain rfl : n = 256 := by omega
        exact ⟨BitVec.le_toInt x, BitVec.toInt_lt⟩
      · exact fit
    · intro fit
      exact .inr ⟨by omega, fit⟩
  · have narrow : bits.length ≤ 256 := by omega
    obtain ⟨x, same, fit⟩ := Builder.signedOf narrow
    rw [size] at same fit
    rw [power] at fit
    exact ⟨x, fit, same⟩

theorem integersReturn {n : Nat} (least : 1 ≤ n) (most : n ≤ 256) :
    (Inverse .stU .ldU n fun x => n = 256 ∨ x.toNat < 2 ^ n) ∧
    Inverse .stI .ldI n fun x => -(2 ^ (n - 1)) ≤ x.toInt ∧ x.toInt < 2 ^ (n - 1) :=
  ⟨unsignedInverse most, signedInverse least most⟩

theorem leastOfFiveReturns :
    run [.simple .stI [5]] ⟨[.builder ⟨[true], []⟩, .int (-16)], .empty, ⟨6, 0⟩, 0⟩ =
      .ok () ⟨[.builder ⟨[true, true, false, false, false, false], []⟩], .empty, ⟨6, 0⟩, 1⟩ ∧
    run [.simple .stI [5]] ⟨[.builder ⟨[true], []⟩, .int 16], .empty, ⟨6, 0⟩, 0⟩ =
      .error (.fault .rangeCheck (some (.simple .stI [5]))) ⟨[], .empty, ⟨6, 0⟩, 1⟩ ∧
    run [.simple .ldI [5]]
        ⟨[.slice ⟨.mk [true, true, false, false, false, false, true] [], 1, 0⟩], .empty, ⟨6, 0⟩, 1⟩ =
      .ok () ⟨[.slice ⟨.mk [true, true, false, false, false, false, true] [], 6, 0⟩, .int (-16)], .empty, ⟨6, 0⟩, 2⟩ ∧
    run [.simple .stU [256]] ⟨[.builder .empty, .int (-1)], .empty, ⟨256, 0⟩, 0⟩ =
      .ok () ⟨[.builder ⟨Word.lowBits (-1) 256, []⟩], .empty, ⟨256, 0⟩, 1⟩ := by
  have narrow := (integersReturn (n := 5) (by decide) (by decide)).2
  have whole := (integersReturn (n := 256) (by decide) (by decide)).1
  have spelt : Word.lowBits (-16) 5 = [true, false, false, false, false] := by decide
  have least : -(2 ^ (5 - 1)) ≤ BitVec.toInt (-16 : Word) ∧ BitVec.toInt (-16 : Word) < 2 ^ (5 - 1) := by decide
  have past : ¬(-(2 ^ (5 - 1)) ≤ BitVec.toInt (16 : Word) ∧ BitVec.toInt (16 : Word) < 2 ^ (5 - 1)) := by decide
  refine ⟨?_, narrow.refuses past ⟨6, 0⟩ ⟨[true], []⟩ [] .empty 0, ?_, ?_⟩
  · have stored := narrow.stores least ⟨6, 0⟩ ⟨[true], []⟩ (by decide) (by decide) [] .empty 0
    rw [spelt] at stored
    exact stored
  · have loaded := narrow.loads least [true] [true] [] 0 ⟨6, 0⟩ [] .empty 1
    rw [spelt] at loaded
    exact loaded
  · have stored := whole.stores (x := -1) (.inl rfl) ⟨256, 0⟩ .empty (by decide) (by decide) [] .empty 0
    simpa only [Nat.cast_ofNat, Builder.empty, List.nil_append] using stored

end Machine

end CellChain
