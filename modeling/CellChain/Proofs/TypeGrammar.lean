import Mathlib
import CellChain.Ty.Parser
/-! The grammar of type expressions. A text is spelt by tokens, with blanks before them and at its end; a name is as
long as it can be. A tree of the grammar has its tokens and denotes a type. A text is spelt by one list of tokens, and
these are the tokens of one tree. -/
namespace CellChain.Ty

variable {ν : Type}

open Text (utf8)

def Letter (b : UInt8) : Prop :=
  let c := Char.ofNat b.toNat
  c.isAlphanum = true ∨ c ∈ ['_', 'ª', 'µ', 'º'] ∨ ('À' ≤ c ∧ c ≤ 'ÿ' ∧ c ≠ '×' ∧ c ≠ '÷')

instance (b : UInt8) : Decidable (Letter b) := by
  unfold Letter
  infer_instance

theorem isNameByteIff (b : UInt8) : isNameByte b = true ↔ Letter b := by
  have each : ∀ n < 256, isNameByte (UInt8.ofNat n) = true ↔ Letter (UInt8.ofNat n) := by decide +kernel
  simpa using each b.toNat b.toNat_lt

inductive Token where
  | name (letters : Bytes)
  | mark (text : String)
  deriving DecidableEq

def marks : List String := ["(", ")", "[", "]", ",", "=>"]

inductive Spells : Bytes → List Token → Prop
  | nil : Spells [] []
  | blank {s : Bytes} {tokens : List Token} (more : Spells s tokens) : Spells (0x20 :: s) tokens
  | name {letters rest : Bytes} {tokens : List Token} (some : letters ≠ []) (each : ∀ b ∈ letters, Letter b)
      (longest : ∀ b ∈ rest.head?, ¬Letter b) (more : Spells rest tokens) :
      Spells (letters ++ rest) (.name letters :: tokens)
  | mark {text : String} {rest : Bytes} {tokens : List Token} (known : text ∈ marks) (more : Spells rest tokens) :
      Spells (utf8 text ++ rest) (.mark text :: tokens)

theorem markHead {text : String} (known : text ∈ marks) :
    ∃ b tail, utf8 text = b :: tail ∧ ¬Letter b ∧ b ≠ 0x20 ∧
      ∀ other ∈ marks, (utf8 other).head? = some b → other = text := by
  have each : ∀ m ∈ marks, ((utf8 m).head?.any fun b => ¬Letter b ∧ b ≠ 0x20 ∧
      ∀ other ∈ marks, (utf8 other).head? = some b → other = m) = true := by decide +kernel
  have own := each text known
  cases shape : utf8 text with
  | nil => simp [shape] at own
  | cons b tail =>
    rw [shape, List.head?_cons, Option.any_some, decide_eq_true_iff] at own
    exact ⟨b, tail, rfl, own⟩

theorem letterNoBlank {b : UInt8} (letter : Letter b) : b ≠ 0x20 := by
  rintro rfl
  revert letter
  decide

theorem skipBlanksCons (s : Bytes) : skipBlanks (0x20 :: s) = skipBlanks s := rfl

theorem skipBlanksSelf {b : UInt8} {s : Bytes} (solid : b ≠ 0x20) : skipBlanks (b :: s) = b :: s := by
  simp [skipBlanks, solid]

theorem Spells.ofSkipped {s : Bytes} {tokens : List Token} (spells : Spells (skipBlanks s) tokens) :
    Spells s tokens := by
  induction s with
  | nil => exact spells
  | cons b s ih =>
    by_cases blank : b = 0x20
    · subst blank
      exact .blank (ih spells)
    · rwa [skipBlanksSelf blank] at spells

theorem skipBlanksSolid (s rest : Bytes) : skipBlanks s ≠ 0x20 :: rest := by
  intro same
  have stops := List.head?_dropWhile_not (· == 0x20) s
  rw [show s.dropWhile (· == 0x20) = _ from same] at stops
  simp at stops

theorem Spells.skipped {s : Bytes} {tokens : List Token} (spells : Spells s tokens) : Spells (skipBlanks s) tokens := by
  induction spells with
  | nil => exact .nil
  | blank _ ih =>
    rw [skipBlanksCons]
    exact ih
  | @name letters rest tokens some each longest more ih =>
    have whole := Spells.name some each longest more
    cases letters with
    | nil => exact absurd rfl some
    | cons b tail => exact (skipBlanksSelf (letterNoBlank (each b List.mem_cons_self))).symm ▸ whole
  | @mark text rest tokens known more ih =>
    have whole := Spells.mark known more
    obtain ⟨b, tail, shape, -, solid, -⟩ := markHead known
    rw [shape] at whole ⊢
    exact (skipBlanksSelf solid).symm ▸ whole

theorem acceptIff {text : String} {s rest : Bytes} : accept? text s = some rest ↔ skipBlanks s = utf8 text ++ rest := by
  unfold accept?
  simp only [List.isPrefixOf_iff_prefix, Option.ite_none_right_eq_some, Option.some.injEq]
  constructor
  · rintro ⟨⟨tail, same⟩, rfl⟩
    rw [← same, List.drop_left]
  · intro same
    rw [same]
    exact ⟨List.prefix_append _ _, List.drop_left⟩

theorem takeNameEq {s letters rest : Bytes} (same : skipBlanks s = letters ++ rest) (each : ∀ b ∈ letters, Letter b)
    (longest : ∀ b ∈ rest.head?, ¬Letter b) : takeName s = (letters, rest) := by
  have inside : ∀ b ∈ letters, isNameByte b = true := fun b mem => (isNameByteIff b).2 (each b mem)
  unfold takeName
  simp only [same]
  rw [List.takeWhile_append_of_pos inside, List.dropWhile_append_of_pos inside]
  cases rest with
  | nil => simp
  | cons b tail =>
    have outside : isNameByte b = false := by
      rw [← Bool.not_eq_true, isNameByteIff]
      exact longest b rfl
    simp [outside]

theorem takeNameParts {s letters rest : Bytes} (taken : takeName s = (letters, rest)) :
    skipBlanks s = letters ++ rest ∧ (∀ b ∈ letters, Letter b) ∧ ∀ b ∈ rest.head?, ¬Letter b := by
  unfold takeName at taken
  simp only [Prod.mk.injEq] at taken
  obtain ⟨rfl, rfl⟩ := taken
  refine ⟨List.takeWhile_append_dropWhile.symm, fun b mem => (isNameByteIff b).1 (List.mem_takeWhile_imp mem), ?_⟩
  intro b first
  rw [← isNameByteIff]
  have stops := List.head?_dropWhile_not isNameByte (skipBlanks s)
  rw [Option.mem_def.1 first] at stops
  simpa using stops

theorem Spells.takesMark {text : String} {s : Bytes} {tokens : List Token} (spells : Spells s (.mark text :: tokens)) :
    text ∈ marks ∧ ∃ rest, accept? text s = some rest ∧ Spells rest tokens := by
  have first := spells.skipped
  generalize shape : skipBlanks s = bare at first
  cases first with
  | blank _ => exact absurd shape (skipBlanksSolid _ _)
  | mark known more => exact ⟨known, _, acceptIff.2 shape, more⟩

theorem Spells.takesName {letters s : Bytes} {tokens : List Token} (spells : Spells s (.name letters :: tokens)) :
    letters ≠ [] ∧ (∀ b ∈ letters, Letter b) ∧ ∃ rest, takeName s = (letters, rest) ∧ Spells rest tokens := by
  have first := spells.skipped
  generalize shape : skipBlanks s = bare at first
  cases first with
  | blank _ => exact absurd shape (skipBlanksSolid _ _)
  | name some each longest more => exact ⟨some, each, _, takeNameEq shape each longest, more⟩

theorem Spells.ended {s : Bytes} (spells : Spells s []) : skipBlanks s = [] := by
  have first := spells.skipped
  generalize shape : skipBlanks s = bare at first
  cases first with
  | nil => rfl
  | blank _ => exact absurd shape (skipBlanksSolid _ _)

theorem Spells.noMark {text : String} {s : Bytes} {tokens : List Token} (spells : Spells s tokens)
    (known : text ∈ marks) (other : tokens.head? ≠ some (.mark text)) : accept? text s = none := by
  refine Option.eq_none_iff_forall_ne_some.2 fun rest taken => ?_
  have shape := acceptIff.1 taken
  obtain ⟨b, tail, head, sign, solid, -⟩ := markHead known
  have first := spells.skipped
  generalize skipBlanks s = bare at first shape
  rw [head, List.cons_append] at shape
  cases first with
  | nil => cases shape
  | blank _ =>
    cases shape
    exact solid rfl
  | @name letters _ _ some each _ _ =>
    cases letters with
    | nil => exact some rfl
    | cons c letters =>
      cases (List.cons.inj shape).1
      exact sign (each _ List.mem_cons_self)
  | @mark text' _ _ known' _ =>
    obtain ⟨c, tail', head', -, -, only⟩ := markHead known'
    rw [head', List.cons_append] at shape
    cases (List.cons.inj shape).1
    have same := only text known (by rw [head]; rfl)
    exact other (by rw [same]; rfl)

theorem Spells.noName {s : Bytes} {tokens : List Token} (spells : Spells s tokens)
    (other : ∀ letters, tokens.head? ≠ some (.name letters)) :
    ∃ rest, takeName s = ([], rest) ∧ Spells rest tokens := by
  have first := spells.skipped
  refine ⟨skipBlanks s, takeNameEq rfl (List.forall_mem_nil _) ?_, first⟩
  generalize shape : skipBlanks s = bare at first
  cases first with
  | nil => exact nofun
  | blank _ => exact absurd shape (skipBlanksSolid _ _)
  | name _ _ _ _ => exact absurd rfl (other _)
  | mark known _ =>
    obtain ⟨b, tail, head, sign, -⟩ := markHead known
    rw [head]
    rintro c ⟨⟩
    exact sign

theorem Spells.length {s : Bytes} {tokens : List Token} (spells : Spells s tokens) : tokens.length ≤ s.length := by
  induction spells with
  | nil => exact Nat.le_refl _
  | blank _ ih => exact Nat.le_succ_of_le ih
  | name some _ _ _ ih =>
    have first := List.length_pos_iff.2 some
    rw [List.length_cons, List.length_append]
    omega
  | mark known _ ih =>
    obtain ⟨b, tail, head, -⟩ := markHead known
    rw [head, List.length_cons, List.length_append, List.length_cons]
    omega

theorem Spells.sameFirst {s : Bytes} {first : Token} {tokens tokens' : List Token} (one : Spells s (first :: tokens))
    (other : Spells s tokens') : ∃ rest more, tokens' = first :: more ∧ Spells rest tokens ∧ Spells rest more := by
  cases first with
  | mark text =>
    obtain ⟨known, rest, taken, spells⟩ := one.takesMark
    by_cases head : tokens'.head? = some (.mark text)
    · obtain ⟨more, rfl⟩ := List.head?_eq_some_iff.1 head
      obtain ⟨-, rest', taken', spells'⟩ := other.takesMark
      cases taken.symm.trans taken'
      exact ⟨rest, more, rfl, spells, spells'⟩
    · rw [other.noMark known head] at taken
      cases taken
  | name letters =>
    obtain ⟨some, -, rest, taken, spells⟩ := one.takesName
    by_cases head : ∃ letters', tokens'.head? = .some (.name letters')
    · obtain ⟨letters', head⟩ := head
      obtain ⟨more, rfl⟩ := List.head?_eq_some_iff.1 head
      obtain ⟨-, -, rest', taken', spells'⟩ := other.takesName
      cases taken.symm.trans taken'
      exact ⟨rest, more, rfl, spells, spells'⟩
    · obtain ⟨_, taken', -⟩ := other.noName (not_exists.1 head)
      cases taken.symm.trans taken'
      exact absurd rfl some

theorem Spells.unique {s : Bytes} {tokens tokens' : List Token} (one : Spells s tokens) (other : Spells s tokens') :
    tokens = tokens' := by
  induction tokens generalizing s tokens' with
  | nil =>
    cases tokens' with
    | nil => rfl
    | cons _ _ =>
      obtain ⟨_, _, same, -⟩ := other.sameFirst one
      cases same
  | cons first tokens ih =>
    obtain ⟨rest, more, rfl, spells, spells'⟩ := one.sameFirst other
    rw [ih spells spells']

def keywords : List String := ["mapping", "tuple", "struct"]

def builtInNames : List String :=
  ["bool", "address", "TvmCell", "cell", "bytes", "string", "function", "TvmSlice", "TvmBuilder"]

def builtIns : List (String × Ty ν) :=
  [("bool", .bool), ("address", .address), ("TvmCell", .cell), ("cell", .cell), ("bytes", .bytes "bytes"),
    ("string", .bytes "string"), ("function", .other "function"), ("TvmSlice", .other "TvmSlice"),
    ("TvmBuilder", .other "TvmBuilder")]

def stem (signed : Bool) : Bytes := utf8 (if signed then "int" else "uint")

def Decimal (digits : Bytes) : Prop := ∀ b ∈ digits, 0x30 ≤ b ∧ b ≤ 0x39

def value (digits : Bytes) : Nat := Nat.ofDigits 10 (digits.reverse.map fun b => b.toNat - 0x30)

def width (digits : Bytes) : Nat := if digits = [] then 256 else value digits

/- A name that is taken for an integer type. Digits that no machine integer holds make it an ordinary name. -/
def IntegerName (name : Bytes) : Prop :=
  ∃ signed digits, name = stem signed ++ digits ∧ Decimal digits ∧ value digits < 2 ^ 63

inductive Atom where
  | builtIn (name : String)
  | integer (signed : Bool) (digits : Bytes)
  | bare (name : Bytes)

def Atom.spelling : Atom → Bytes
  | .builtIn name => utf8 name
  | .integer signed digits => stem signed ++ digits
  | .bare name => name

inductive Atom.Denotes (lookup : Bytes → Option (Ty ν)) : Atom → Ty ν → Prop
  | builtIn {name : String} {t : Ty ν} (known : (name, t) ∈ builtIns) : Denotes lookup (.builtIn name) t
  | integer {signed : Bool} {digits : Bytes} (decimal : Decimal digits)
      (range : 1 ≤ width digits ∧ width digits ≤ 256) :
      Denotes lookup (.integer signed digits) (.integer signed (width digits))
  | bare {name : Bytes} {t : Ty ν} (free : ∀ k ∈ keywords, name ≠ utf8 k) (own : ∀ n ∈ builtInNames, name ≠ utf8 n)
      (plain : ¬IntegerName name) (found : lookup name = some t) : Denotes lookup (.bare name) t

theorem builtInNamed : (builtIns (ν := ν)).map Prod.fst = builtInNames := rfl

theorem builtInListed {n : String} {t : Ty ν} (known : (n, t) ∈ builtIns) : n ∈ builtInNames :=
  List.mem_map_of_mem (f := Prod.fst) known

theorem builtInIff {name : Bytes} {t : Ty ν} : builtIn? name = some t ↔ ∃ n, (n, t) ∈ builtIns ∧ name = utf8 n := by
  constructor
  · intro found
    unfold builtIn? at found
    split_ifs at found with bool address cell bytes string
    · cases found
      exact ⟨"bool", by simp [builtIns], bool⟩
    · cases found
      exact ⟨"address", by simp [builtIns], address⟩
    · cases found
      rcases cell with cell | cell
      · exact ⟨"TvmCell", by simp [builtIns], cell⟩
      · exact ⟨"cell", by simp [builtIns], cell⟩
    · cases found
      exact ⟨"bytes", by simp [builtIns], bytes⟩
    · cases found
      exact ⟨"string", by simp [builtIns], string⟩
    · obtain ⟨n, named, rfl⟩ := Option.map_eq_some_iff.1 found
      have listed := List.mem_of_find?_eq_some named
      have same := List.find?_some named
      refine ⟨n, ?_, (beq_iff_eq.1 same).symm⟩
      simp only [opaqueNames, List.mem_cons, List.not_mem_nil, or_false] at listed
      rcases listed with rfl | rfl | rfl <;> simp [builtIns]
  · rintro ⟨n, known, rfl⟩
    have each : ∀ b ∈ builtIns (ν := ν), builtIn? (utf8 b.1) = some b.2 := by
      simp only [builtIns, List.forall_mem_cons]
      exact ⟨rfl, rfl, rfl, rfl, rfl, rfl, rfl, rfl, rfl, List.forall_mem_nil _⟩
    exact each _ known

theorem valueCons (b : UInt8) (digits : Bytes) :
    value (b :: digits) = (b.toNat - 0x30) * 10 ^ digits.length + value digits := by
  simp only [value, List.reverse_cons, List.map_append, Nat.ofDigits_append, List.length_map, List.length_reverse,
    List.map_cons, List.map_nil, Nat.ofDigits_singleton]
  ring

theorem digitIff (b : UInt8) (n : Nat) :
    Text.digit? (Char.ofNat b.toNat) = some n ↔ (0x30 ≤ b ∧ b ≤ 0x39) ∧ n = b.toNat - 0x30 := by
  have each : ∀ n < 256, Text.digit? (Char.ofNat n) = if 0x30 ≤ n ∧ n ≤ 0x39 then some (n - 0x30) else none := by
    decide +kernel
  rw [each b.toNat b.toNat_lt, UInt8.le_iff_toNat_le, UInt8.le_iff_toNat_le]
  split <;> simp_all [eq_comm]

theorem digitsFold (digits : Bytes) (n m : Nat) :
    (digits.map fun b => Char.ofNat b.toNat).foldlM (fun n c => (Text.digit? c).map (n * 10 + ·)) n = some m ↔
      Decimal digits ∧ m = n * 10 ^ digits.length + value digits := by
  induction digits generalizing n with
  | nil => simp [Decimal, value, eq_comm]
  | cons b digits ih =>
    rw [List.map_cons, List.foldlM_cons, valueCons]
    simp only [Option.bind_eq_bind, Option.bind_eq_some_iff, Option.map_eq_some_iff, digitIff, ih, Decimal,
      List.forall_mem_cons]
    constructor
    · rintro ⟨_, ⟨_, ⟨digit, rfl⟩, rfl⟩, decimal, rfl⟩
      refine ⟨⟨digit, decimal⟩, ?_⟩
      rw [List.length_cons]
      ring
    · rintro ⟨⟨digit, decimal⟩, rfl⟩
      refine ⟨_, ⟨_, ⟨digit, rfl⟩, rfl⟩, decimal, ?_⟩
      rw [List.length_cons]
      ring

theorem integerUnsigned {cs : List Char} (unsigned : cs.head? ≠ some '-' ∧ cs.head? ≠ some '+') (n : Int) :
    Text.integer? cs = some n ↔ ∃ m : Nat, Text.digits? cs = some m ∧ m < 2 ^ 63 ∧ n = m := by
  have range (m : Nat) : Text.smallestInt ≤ (m : Int) ∧ (m : Int) ≤ Text.largestInt ↔ m < 2 ^ 63 := by
    simp only [Text.smallestInt, Text.largestInt]
    omega
  unfold Text.integer?
  split
  · exact absurd rfl unsigned.1
  · exact absurd rfl unsigned.2
  · simp only [Option.bind_eq_bind, Option.bind_eq_some_iff, Option.map_eq_some_iff, Option.ite_none_right_eq_some,
      Option.some.injEq]
    constructor
    · rintro ⟨_, ⟨_, ⟨m, read, ⟨⟩⟩, rfl⟩, small, rfl⟩
      exact ⟨m, read, (range m).1 small, rfl⟩
    · rintro ⟨m, read, small, rfl⟩
      exact ⟨m, ⟨m, ⟨m, read, rfl⟩, rfl⟩, (range m).2 small, rfl⟩

theorem integerOfLetters {digits : Bytes} (some : digits ≠ []) (each : ∀ b ∈ digits, Letter b) (n : Int) :
    Text.integer? (digits.map fun b => Char.ofNat b.toNat) = .some n ↔
      Decimal digits ∧ value digits < 2 ^ 63 ∧ n = value digits := by
  cases digits with
  | nil => exact absurd rfl some
  | cons b digits =>
    have letter := each b List.mem_cons_self
    have unsigned : Char.ofNat b.toNat ≠ '-' ∧ Char.ofNat b.toNat ≠ '+' := by
      constructor <;>
      · intro sign
        simp only [Letter, sign] at letter
        revert letter
        decide
    have fold := digitsFold (b :: digits) 0
    rw [integerUnsigned (by simpa using unsigned)]
    simp only [Nat.zero_mul, Nat.zero_add] at fold
    constructor
    · rintro ⟨m, read, small, rfl⟩
      obtain ⟨decimal, rfl⟩ := (fold m).1 read
      exact ⟨decimal, small, rfl⟩
    · rintro ⟨decimal, small, rfl⟩
      exact ⟨_, (fold _).2 ⟨decimal, rfl⟩, small, rfl⟩

theorem integerWidthIff {digits : Bytes} (each : ∀ b ∈ digits, Letter b) (bits : Nat) :
    integerWidth? digits = some bits ↔ Decimal digits ∧ value digits < 2 ^ 63 ∧ bits = width digits := by
  by_cases empty : digits = []
  · subst empty
    simp [integerWidth?, Decimal, value, width, eq_comm]
  · simp only [integerWidth?, if_neg empty, Option.map_eq_some_iff, integerOfLetters empty each, width]
    constructor
    · rintro ⟨_, ⟨decimal, small, rfl⟩, rfl⟩
      exact ⟨decimal, small, rfl⟩
    · rintro ⟨decimal, small, rfl⟩
      exact ⟨_, ⟨decimal, small, rfl⟩, rfl⟩

theorem integerNameStem (signed : Bool) (digits : Bytes) :
    integerName? (stem signed ++ digits) = (integerWidth? digits).map (signed, ·) := by
  cases signed <;> rfl

theorem stemOfInteger {name : Bytes} {read : Bool × Nat} (found : integerName? name = some read) :
    ∃ signed digits, name = stem signed ++ digits := by
  by_cases unsigned : utf8 "uint" <+: name
  · obtain ⟨digits, same⟩ := unsigned
    exact ⟨false, digits, same.symm⟩
  · by_cases signed : utf8 "int" <+: name
    · obtain ⟨digits, same⟩ := signed
      exact ⟨true, digits, same.symm⟩
    · simp [integerName?, unsigned, signed] at found

theorem integerNameIff {name : Bytes} (each : ∀ b ∈ name, Letter b) {signed : Bool} {bits : Nat} :
    integerName? name = some (signed, bits) ↔
      ∃ digits, name = stem signed ++ digits ∧ Decimal digits ∧ value digits < 2 ^ 63 ∧ bits = width digits := by
  constructor
  · intro read
    obtain ⟨signed', digits, rfl⟩ := stemOfInteger read
    rw [integerNameStem] at read
    obtain ⟨_, known, same⟩ := Option.map_eq_some_iff.1 read
    cases same
    exact ⟨digits, rfl, (integerWidthIff (fun b mem => each b (List.mem_append_right _ mem)) bits).1 known⟩
  · rintro ⟨digits, rfl, known⟩
    rw [integerNameStem, (integerWidthIff (fun b mem => each b (List.mem_append_right _ mem)) bits).2 known]
    rfl

theorem integerNamed {name : Bytes} (each : ∀ b ∈ name, Letter b) : integerName? name = none ↔ ¬IntegerName name := by
  rw [← not_iff_not, not_not, ← ne_eq, Option.ne_none_iff_exists']
  constructor
  · rintro ⟨⟨signed, bits⟩, found⟩
    obtain ⟨digits, shape, decimal, small, -⟩ := (integerNameIff each).1 found
    exact ⟨signed, digits, shape, decimal, small⟩
  · rintro ⟨signed, digits, shape, decimal, small⟩
    exact ⟨_, (integerNameIff each).2 ⟨digits, shape, decimal, small, rfl⟩⟩

theorem stemInj {signed signed' : Bool} {digits digits' : Bytes}
    (same : stem signed ++ digits = stem signed' ++ digits') :
    signed = signed' ∧ digits = digits' := by
  have first (signed : Bool) (digits : Bytes) :
    (stem signed ++ digits).head? = some (if signed then 0x69 else 0x75) := by
    cases signed <;> rfl
  have heads := congrArg List.head? same
  rw [first, first] at heads
  have equal : signed = signed' := by
    revert heads
    cases signed <;> cases signed' <;> decide
  subst equal
  exact ⟨rfl, List.append_cancel_left same⟩

theorem builtInStem {n : String} {t : Ty ν} (known : (n, t) ∈ builtIns) (signed : Bool) (digits : Bytes) :
    utf8 n ≠ stem signed ++ digits := by
  have each : ∀ n ∈ builtInNames, ∀ signed, ¬stem signed <+: utf8 n := by decide +kernel
  intro same
  exact each n (builtInListed known) signed ⟨digits, same.symm⟩

theorem widthSmall {digits : Bytes} (range : width digits ≤ 256) : value digits < 2 ^ 63 := by
  unfold width at range
  split_ifs at range with empty
  · subst empty
    decide
  · omega

namespace Atom

variable {lookup : Bytes → Option (Ty ν)} {a : Atom} {t : Ty ν}

theorem ofRead {name s rest : Bytes} (each : ∀ b ∈ name, Letter b) (free : ∀ k ∈ keywords, name ≠ utf8 k)
    (read : word lookup name s = .ok (t, rest)) : rest = s ∧ ∃ a : Atom, a.spelling = name ∧ a.Denotes lookup t := by
  unfold word at read
  cases known : builtIn? name with
  | some own =>
    rw [known] at read
    cases read
    obtain ⟨n, listed, rfl⟩ := builtInIff.1 known
    exact ⟨rfl, .builtIn n, rfl, .builtIn listed⟩
  | none =>
    cases number : integerName? name with
    | some pair =>
      obtain ⟨signed, bits⟩ := pair
      simp only [known, number] at read
      split_ifs at read with range
      cases read
      obtain ⟨digits, rfl, decimal, -, rfl⟩ := (integerNameIff each).1 number
      exact ⟨rfl, .integer signed digits, rfl, .integer decimal range⟩
    | none =>
      simp only [known, number, structNamed] at read
      cases found : lookup name with
      | none => simp [found] at read
      | some own =>
        rw [found] at read
        cases read
        refine ⟨rfl, .bare name, rfl, .bare free ?_ ((integerNamed each).1 number) found⟩
        intro n listed same
        rw [← builtInNamed (ν := ν)] at listed
        obtain ⟨b, own, rfl⟩ := List.mem_map.1 listed
        rw [builtInIff.2 ⟨b.1, own, same⟩] at known
        cases known

theorem Denotes.read {s : Bytes} (denotes : a.Denotes lookup t) (each : ∀ b ∈ a.spelling, Letter b) :
    word lookup a.spelling s = .ok (t, s) := by
  unfold word
  cases denotes with
  | @builtIn name _ known =>
    have found : builtIn? (utf8 name) = some t := builtInIff.2 ⟨name, known, rfl⟩
    simp only [spelling, found]
  | @integer signed digits decimal range =>
    have foreign : builtIn? (ν := ν) (stem signed ++ digits) = none := by
      refine Option.eq_none_iff_forall_ne_some.2 fun u found => ?_
      obtain ⟨n, known, same⟩ := builtInIff.1 found
      exact builtInStem known signed digits same.symm
    have number := (integerNameIff each).2 ⟨digits, rfl, decimal, widthSmall range.2, rfl⟩
    rw [spelling] at number ⊢
    simp only [foreign, number, if_pos range]
  | @bare name _ free own plain found =>
    have foreign : builtIn? (ν := ν) name = none := by
      refine Option.eq_none_iff_forall_ne_some.2 fun u known => ?_
      obtain ⟨n, listed, same⟩ := builtInIff.1 known
      exact own _ (builtInListed listed) same
    have number := (integerNamed each).2 plain
    rw [spelling] at number ⊢
    simp only [foreign, number, structNamed, found]

theorem Denotes.free (denotes : a.Denotes lookup t) : ∀ k ∈ keywords, a.spelling ≠ utf8 k := by
  cases denotes with
  | builtIn known =>
    have each : ∀ n ∈ builtInNames, ∀ k ∈ keywords, utf8 n ≠ utf8 k := by decide +kernel
    exact each _ (builtInListed known)
  | @integer signed digits decimal range =>
    have each : ∀ k ∈ keywords, ∀ signed, ¬stem signed <+: utf8 k := by decide +kernel
    exact fun k known same => each k known signed ⟨digits, same⟩
  | bare free own plain found => exact free

/- The alternatives for a word exclude each other. -/
theorem Denotes.unique {a' : Atom} {t' : Ty ν} (one : a.Denotes lookup t) (other : a'.Denotes lookup t')
    (same : a.spelling = a'.spelling) : a = a' := by
  cases one with
  | @builtIn name _ known =>
    cases other with
    | @builtIn name' _ known' =>
      have each : ∀ m ∈ builtInNames, ∀ n ∈ builtInNames, utf8 m = utf8 n → m = n := by decide +kernel
      exact congrArg _ (each _ (builtInListed known) _ (builtInListed known') same)
    | integer _ _ => exact absurd same (builtInStem known _ _)
    | bare _ own _ _ => exact absurd same.symm (own _ (builtInListed known))
  | @integer signed digits decimal range =>
    cases other with
    | builtIn known => exact absurd same.symm (builtInStem known _ _)
    | @integer signed' digits' _ _ =>
      obtain ⟨rfl, rfl⟩ := stemInj same
      rfl
    | bare _ _ plain _ => exact absurd ⟨signed, digits, same.symm, decimal, widthSmall range.2⟩ plain
  | bare free own plain _ =>
    cases other with
    | builtIn known => exact absurd same (own _ (builtInListed known))
    | integer decimal range => exact absurd ⟨_, _, same, decimal, widthSmall range.2⟩ plain
    | bare _ _ _ _ => exact congrArg _ same

end Atom

mutual
inductive Expr where
  | of (base : Base) (arrays : Nat)

inductive Base where
  | atom (atom : Atom)
  | struct (name : Bytes)
  | mapping (key value : Expr)
  | tuple (parts : List Expr)
end

def brackets : Nat → List Token
  | 0 => []
  | n + 1 => .mark "[" :: .mark "]" :: brackets n

mutual
def Expr.tokens : Expr → List Token
  | .of base arrays => base.tokens ++ brackets arrays

def Base.tokens : Base → List Token
  | .atom atom => [.name atom.spelling]
  | .struct name => .name (utf8 "struct") :: if name = [] then [] else [.name name]
  | .mapping key value =>
    [.name (utf8 "mapping"), .mark "("] ++ key.tokens ++ [.mark "=>"] ++ value.tokens ++ [.mark ")"]
  | .tuple parts => [.name (utf8 "tuple"), .mark "("] ++ listTokens parts ++ [.mark ")"]

def listTokens : List Expr → List Token
  | [] => []
  | e :: rest => e.tokens ++ moreTokens rest

def moreTokens : List Expr → List Token
  | [] => []
  | e :: rest => .mark "," :: (e.tokens ++ moreTokens rest)
end

mutual
inductive Expr.Denotes (lookup : Bytes → Option (Ty ν)) : Expr → Ty ν → Prop
  | of {base : Base} {arrays : Nat} {t : Ty ν} (inner : base.Denotes lookup t) :
      Expr.Denotes lookup (.of base arrays) (Ty.array^[arrays] t)

inductive Base.Denotes (lookup : Bytes → Option (Ty ν)) : Base → Ty ν → Prop
  | atom {atom : Atom} {t : Ty ν} (own : atom.Denotes lookup t) : Base.Denotes lookup (.atom atom) t
  | struct {name : Bytes} {t : Ty ν} (found : lookup name = some t) : Base.Denotes lookup (.struct name) t
  | mapping {key value : Expr} {k v : Ty ν} (first : key.Denotes lookup k) (second : value.Denotes lookup v) :
      Base.Denotes lookup (.mapping key value) (.mapping k v)
  | tuple {parts : List Expr} {types : List (Ty ν)} (each : List.Forall₂ (Expr.Denotes lookup) parts types) :
      Base.Denotes lookup (.tuple parts) (.tuple types)
end

def Derives (lookup : Bytes → Option (Ty ν)) (s : Bytes) (e : Expr) (t : Ty ν) : Prop :=
    Spells s e.tokens ∧ e.Denotes lookup t

def NoName (tokens : List Token) : Prop := ∀ letters, tokens.head? ≠ some (.name letters)

def Follows (tokens : List Token) : Prop := NoName tokens ∧ tokens.head? ≠ some (.mark "[")

theorem noNameMark (text : String) (tokens : List Token) : NoName (.mark text :: tokens) := by simp [NoName]

theorem followsMark {text : String} (other : text ≠ "[") (tokens : List Token) : Follows (.mark text :: tokens) :=
  ⟨noNameMark text tokens, by simpa using other⟩

theorem followsNil : Follows [] := by simp [Follows, NoName]

theorem Follows.brackets {tokens : List Token} (follows : Follows tokens) (n : Nat) :
    NoName (brackets n ++ tokens) := by
  cases n with
  | zero => exact follows.1
  | succ n => exact noNameMark _ _

theorem bracketsApart {n n' : Nat} {tokens tokens' : List Token} (follows : Follows tokens) (follows' : Follows tokens')
    (same : brackets n ++ tokens = brackets n' ++ tokens') : n = n' ∧ tokens = tokens' := by
  induction n generalizing n' with
  | zero =>
    cases n' with
    | zero => exact ⟨rfl, same⟩
    | succ n' =>
      cases same
      exact absurd rfl follows.2
  | succ n ih =>
    cases n' with
    | zero =>
      cases same
      exact absurd rfl follows'.2
    | succ n' =>
      simp only [brackets, List.cons_append, List.cons.injEq, true_and] at same
      obtain ⟨rfl, rest⟩ := ih same
      exact ⟨rfl, rest⟩

def Base.keyword? : Base → Option String
  | .atom _ => none
  | .struct _ => some "struct"
  | .mapping _ _ => some "mapping"
  | .tuple _ => some "tuple"

theorem Base.Denotes.opening {lookup : Bytes → Option (Ty ν)} {base : Base} {t : Ty ν}
    (denotes : base.Denotes lookup t) :
    ∃ letters more, base.tokens = .name letters :: more ∧ ∀ k ∈ keywords, letters = utf8 k ↔
      base.keyword? = some k := by
  have each : ∀ a ∈ keywords, ∀ b ∈ keywords, utf8 a = utf8 b ↔ some a = some b := by decide +kernel
  cases denotes with
  | atom own => exact ⟨_, _, rfl, fun k known => iff_of_false (own.free k known) nofun⟩
  | struct _ => exact ⟨_, _, rfl, each "struct" (by decide)⟩
  | mapping _ _ => exact ⟨_, _, rfl, each "mapping" (by decide)⟩
  | tuple _ => exact ⟨_, _, rfl, each "tuple" (by decide)⟩

theorem Base.Denotes.sameKeyword {lookup : Bytes → Option (Ty ν)} {b b' : Base} {t t' : Ty ν}
    {tokens tokens' : List Token}
    (one : b.Denotes lookup t) (two : b'.Denotes lookup t') (same : b.tokens ++ tokens = b'.tokens ++ tokens') :
    b.keyword? = b'.keyword? := by
  obtain ⟨letters, _, shape, tells⟩ := one.opening
  obtain ⟨letters', _, shape', tells'⟩ := two.opening
  rw [shape, shape'] at same
  cases (List.cons.inj same).1
  have agree : ∀ k ∈ keywords, b.keyword? = some k ↔ b'.keyword? = some k := fun k known =>
    (tells k known).symm.trans (tells' k known)
  cases b with
  | atom _ =>
    cases b' with
    | atom _ => rfl
    | struct _ => exact (agree _ (by decide)).2 rfl
    | mapping _ _ => exact (agree _ (by decide)).2 rfl
    | tuple _ => exact (agree _ (by decide)).2 rfl
  | struct _ => exact ((agree _ (by decide)).1 rfl).symm
  | mapping _ _ => exact ((agree _ (by decide)).1 rfl).symm
  | tuple _ => exact ((agree _ (by decide)).1 rfl).symm

theorem Expr.firstName (e : Expr) : ∃ letters more, e.tokens = .name letters :: more := by
  obtain ⟨base, arrays⟩ := e
  cases base with
  | atom _ => exact ⟨_, _, rfl⟩
  | struct _ => exact ⟨_, _, rfl⟩
  | mapping _ _ => exact ⟨_, _, rfl⟩
  | tuple _ => exact ⟨_, _, rfl⟩

theorem moreFollows (rest : List Expr) (tokens : List Token) : Follows (moreTokens rest ++ .mark ")" :: tokens) := by
  cases rest with
  | nil => exact followsMark (by decide) _
  | cons e rest => exact followsMark (by decide) _

mutual
theorem Expr.apart {lookup : Bytes → Option (Ty ν)} :
    (e : Expr) → ∀ {e' : Expr} {t t' : Ty ν} {tokens tokens' : List Token},
    e.Denotes lookup t → e'.Denotes lookup t' → Follows tokens → Follows tokens' →
      e.tokens ++ tokens = e'.tokens ++ tokens' → e = e' ∧ tokens = tokens'
  | .of base arrays, .of base' arrays', _, _, _, _, .of one, .of two, follows, follows', same => by
    -- Behind a base stands no name, so the name after `struct` is its own or missing in both.
    simp only [Expr.tokens, List.append_assoc] at same
    obtain ⟨rfl, behind⟩ := base.apart one two (follows.brackets arrays) (follows'.brackets arrays') same
    obtain ⟨rfl, rest⟩ := bracketsApart follows follows' behind
    exact ⟨rfl, rest⟩

theorem Base.apart {lookup : Bytes → Option (Ty ν)} :
    (b : Base) → ∀ {b' : Base} {t t' : Ty ν} {tokens tokens' : List Token},
    b.Denotes lookup t → b'.Denotes lookup t' → NoName tokens → NoName tokens' →
      b.tokens ++ tokens = b'.tokens ++ tokens' → b = b' ∧ tokens = tokens'
  | .atom a, b', _, _, _, _, one, two, _, _, same => by
    have kinds := one.sameKeyword two same
    cases b' <;> simp [Base.keyword?] at kinds
    cases one with
    | atom own =>
    cases two with
    | atom own' =>
      simp only [Base.tokens, List.cons_append, List.nil_append, List.cons.injEq, Token.name.injEq] at same
      rw [own.unique own' same.1]
      exact ⟨rfl, same.2⟩
  | .struct name, b', _, _, _, _, one, two, absent, absent', same => by
    have kinds := one.sameKeyword two same
    cases b' <;> simp [Base.keyword?] at kinds
    simp only [Base.tokens, List.cons_append, List.cons.injEq, true_and] at same
    split_ifs at same with empty empty' empty'
    · exact ⟨by rw [empty, empty'], same⟩
    · cases same
      exact absurd rfl (absent _)
    · cases same
      exact absurd rfl (absent' _)
    · cases same
      exact ⟨rfl, rfl⟩
  | .mapping key value, b', _, _, _, _, one, two, _, _, same => by
    have kinds := one.sameKeyword two same
    cases b' <;> simp [Base.keyword?] at kinds
    cases one with
    | mapping first second =>
    cases two with
    | mapping first' second' =>
      simp only [Base.tokens, List.cons_append, List.nil_append, List.append_assoc, List.cons.injEq, true_and] at same
      obtain ⟨rfl, behind⟩ := key.apart first first' (followsMark (by decide) _) (followsMark (by decide) _) same
      obtain ⟨rfl, rest⟩ := value.apart second second' (followsMark (by decide) _) (followsMark (by decide) _)
        (List.cons.inj behind).2
      exact ⟨rfl, (List.cons.inj rest).2⟩
  | .tuple parts, b', _, _, _, _, one, two, _, _, same => by
    have kinds := one.sameKeyword two same
    cases b' <;> simp [Base.keyword?] at kinds
    cases one with
    | tuple each =>
    cases two with
    | tuple each' =>
      simp only [Base.tokens, List.cons_append, List.nil_append, List.append_assoc, List.cons.injEq, true_and] at same
      obtain ⟨rfl, rest⟩ := listApart parts each each' same
      exact ⟨rfl, rest⟩

theorem listApart {lookup : Bytes → Option (Ty ν)} :
    (parts : List Expr) → ∀ {parts' : List Expr} {types types' : List (Ty ν)}
    {tokens tokens' : List Token}, List.Forall₂ (Expr.Denotes lookup) parts types →
      List.Forall₂ (Expr.Denotes lookup) parts' types' →
        listTokens parts ++ .mark ")" :: tokens = listTokens parts' ++ .mark ")" :: tokens' →
          parts = parts' ∧ tokens = tokens'
  | [], [], _, _, _, _, _, _, same => ⟨rfl, (List.cons.inj same).2⟩
  | [], e' :: _, _, _, _, _, _, _, same => by
    obtain ⟨_, _, first⟩ := e'.firstName
    rw [listTokens, listTokens, first] at same
    cases same
  | e :: _, [], _, _, _, _, _, _, same => by
    obtain ⟨_, _, first⟩ := e.firstName
    rw [listTokens, listTokens, first] at same
    cases same
  | e :: rest, e' :: rest', _, _, _, _, .cons one each, .cons two each', same => by
    simp only [listTokens, List.append_assoc] at same
    obtain ⟨rfl, behind⟩ := e.apart one two (moreFollows _ _) (moreFollows _ _) same
    obtain ⟨rfl, after⟩ := moreApart rest each each' behind
    exact ⟨rfl, after⟩

theorem moreApart {lookup : Bytes → Option (Ty ν)} :
    (rest : List Expr) → ∀ {rest' : List Expr} {types types' : List (Ty ν)}
    {tokens tokens' : List Token}, List.Forall₂ (Expr.Denotes lookup) rest types →
      List.Forall₂ (Expr.Denotes lookup) rest' types' →
        moreTokens rest ++ .mark ")" :: tokens = moreTokens rest' ++ .mark ")" :: tokens' →
          rest = rest' ∧ tokens = tokens'
  | [], [], _, _, _, _, _, _, same => ⟨rfl, (List.cons.inj same).2⟩
  | [], _ :: _, _, _, _, _, _, _, same => by
    simp [moreTokens] at same
  | _ :: _, [], _, _, _, _, _, _, same => by
    simp [moreTokens] at same
  | e :: rest, e' :: rest', _, _, _, _, .cons one each, .cons two each', same => by
    simp only [moreTokens, List.cons_append, List.append_assoc, List.cons.injEq, true_and] at same
    obtain ⟨rfl, behind⟩ := e.apart one two (moreFollows _ _) (moreFollows _ _) same
    obtain ⟨rfl, after⟩ := moreApart rest each each' behind
    exact ⟨rfl, after⟩
end

theorem treeUnique {lookup : Bytes → Option (Ty ν)} {s : Bytes} {e e' : Expr} {t t' : Ty ν} (one : Derives lookup s e t)
    (other : Derives lookup s e' t') : e = e' := by
  have same : e.tokens ++ [] = e'.tokens ++ [] := by
    rw [one.1.unique other.1]
  exact (e.apart one.2 other.2 followsNil followsNil same).1

end CellChain.Ty
