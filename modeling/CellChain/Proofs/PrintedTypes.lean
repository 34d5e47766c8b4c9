import Mathlib
import CellChain.Proofs.LoadedTypes
import CellChain.Proofs.TypeReading
/-! The printed form of a type is read as that type. The text that was read may have had other blanks, leading zeros,
another word for a built-in type or a bare struct name: printing has one tree of the grammar for each type, whose struct
names stand after `struct`. Names are bytes, and need not be the bytes of a text. -/
namespace CellChain.Ty

open Text (utf8)

theorem utf8Append (a b : String) : utf8 (a ++ b) = utf8 a ++ utf8 b := by
  simp [utf8, String.toUTF8]

def Printed (s : Bytes) (tokens : List Token) : Prop :=
  ∀ (rest : Bytes) (more : List Token), (∀ b ∈ rest.head?, ¬Letter b) → Spells rest more →
    Spells (s ++ rest) (tokens ++ more)

namespace Printed

variable {s s' : Bytes} {tokens tokens' : List Token}

theorem name {letters : Bytes} (some : letters ≠ []) (each : ∀ b ∈ letters, Letter b) :
    Printed letters [.name letters] := by
  intro rest more stops spells
  exact .name some each stops spells

theorem keyword {k : String} (known : k ∈ keywords) : Printed (utf8 k) [.name (utf8 k)] := by
  have each : ∀ k ∈ keywords, utf8 k ≠ [] ∧ ∀ b ∈ utf8 k, Letter b := by decide +kernel
  exact name (each k known).1 (each k known).2

theorem blank (printed : Printed s tokens) : Printed (0x20 :: s) tokens := by
  intro rest more stops spells
  exact .blank (printed rest more stops spells)

theorem mark (text : String) (known : text ∈ marks) (printed : Printed s tokens) :
    Printed (utf8 text ++ s) (.mark text :: tokens) := by
  intro rest more stops spells
  rw [List.append_assoc]
  exact .mark known (printed rest more stops spells)

theorem nil : Printed [] [] := by
  intro rest more _ spells
  exact spells

theorem append (first : Printed s tokens) (second : Printed s' tokens') (apart : ∀ b ∈ s'.head?, ¬Letter b) :
    Printed (s ++ s') (tokens ++ tokens') := by
  intro rest more stops spells
  rw [List.append_assoc, List.append_assoc]
  refine first _ _ ?_ (second rest more stops spells)
  cases s' with
  | nil => exact stops
  | cons b tail => exact apart

theorem blankApart {s : Bytes} : ∀ b ∈ ((0x20 : UInt8) :: s).head?, ¬Letter b := by
  intro b first
  cases first
  decide

theorem beforeMark (first : Printed s tokens) (text : String) (known : text ∈ marks) (second : Printed s' tokens') :
    Printed (s ++ (utf8 text ++ s')) (tokens ++ .mark text :: tokens') := by
  refine first.append (mark text known second) ?_
  obtain ⟨b, tail, head, sign, -⟩ := markHead known
  simpa [head] using sign

theorem closed (first : Printed s tokens) (text : String) (known : text ∈ marks) :
    Printed (s ++ utf8 text) (tokens ++ [.mark text]) := by
  have whole := first.beforeMark text known nil
  rwa [List.append_nil] at whole

end Printed

section
variable {ν : Type} {spell : ν → Bytes} {lookup : Bytes → Option (Ty ν)}

/- The printed form is spelt by a tree that denotes the type. -/
def Prints (spell : ν → Bytes) (lookup : Bytes → Option (Ty ν)) (t : Ty ν) : Prop :=
  ∃ e : Expr, e.Denotes lookup t ∧ Printed (t.write utf8 spell) e.tokens

theorem Prints.ofBase {base : Base} {t : Ty ν} (denotes : base.Denotes lookup t)
    (printed : Printed (t.write utf8 spell) base.tokens) : Prints spell lookup t := by
  refine ⟨.of base 0, .of denotes, ?_⟩
  rw [Expr.tokens, brackets, List.append_nil]
  exact printed

theorem builtInPrints {name : Bytes} {t : Ty ν} (found : builtIn? name = some t) : Prints spell lookup t := by
  have each : ∀ b ∈ builtIns (ν := ν), ∃ n, (n, b.2) ∈ builtIns ∧ b.2.write utf8 spell = utf8 n := by
    have own (n : String) {t : Ty ν} (known : (n, t) ∈ builtIns) (same : t.write utf8 spell = utf8 n) :
        ∃ n, (n, t) ∈ builtIns ∧ t.write utf8 spell = utf8 n := ⟨n, known, same⟩
    simp only [builtIns, List.forall_mem_cons] at own ⊢
    exact ⟨own "bool" (by simp) rfl, own "address" (by simp) rfl, own "TvmCell" (by simp) rfl,
      own "TvmCell" (by simp) rfl, own "bytes" (by simp) rfl, own "string" (by simp) rfl,
      own "function" (by simp) rfl, own "TvmSlice" (by simp) rfl, own "TvmBuilder" (by simp) rfl, List.forall_mem_nil _⟩
  have letters : ∀ n ∈ builtInNames, utf8 n ≠ [] ∧ ∀ l ∈ utf8 n, Letter l := by decide +kernel
  obtain ⟨_, known, -⟩ := builtInIff.1 found
  obtain ⟨n, own, spelt⟩ := each _ known
  have word := letters n (builtInListed own)
  refine .ofBase (.atom (.builtIn own)) ?_
  rw [spelt]
  exact .name word.1 word.2

theorem digitsUtf8 {cs : List Char} (digits : ∀ c ∈ cs, c.isDigit = true) :
    utf8 (String.ofList cs) = cs.map (·.val.toUInt8) := by
  induction cs with
  | nil => rfl
  | cons c cs ih =>
    rw [List.forall_mem_cons] at digits
    have small : c.utf8Size = 1 := by
      have digit := digits.1
      simp only [Char.isDigit, Bool.and_eq_true, decide_eq_true_eq] at digit
      exact Char.utf8Size_eq_one_iff.2 (UInt32.le_trans digit.2 (by decide))
    rw [List.map_cons, ← ih digits.2]
    simp only [utf8, String.toUTF8, String.toByteArray_ofList]
    rw [List.utf8Encode_cons, List.utf8Encode_singleton, String.utf8EncodeChar_eq_singleton small]
    simp

theorem digitsDecimal {cs : List Char} (digits : ∀ c ∈ cs, c.isDigit = true) : Decimal (cs.map (·.val.toUInt8)) := by
  intro b inside
  obtain ⟨c, mem, rfl⟩ := List.mem_map.1 inside
  have digit := digits c mem
  simp only [Char.isDigit, Bool.and_eq_true, decide_eq_true_eq, ge_iff_le, UInt32.le_iff_toNat_le] at digit
  simp only [UInt8.le_iff_toNat_le, UInt32.toNat_toUInt8]
  have ends : '0'.val.toNat = 48 ∧ '9'.val.toNat = 57 := by decide
  have same : (48 : UInt8).toNat = 48 ∧ (57 : UInt8).toNat = 57 := by decide
  omega

theorem numeralValue : ∀ n < 257, 1 ≤ n → value ((Nat.toDigits 10 n).map (·.val.toUInt8)) = n := by decide +kernel

theorem numeralWidth {n : Nat} (low : 1 ≤ n) (high : n ≤ 256) : utf8 (toString (n : Int)) ≠ [] ∧
    Decimal (utf8 (toString (n : Int))) ∧ width (utf8 (toString (n : Int))) = n := by
  have digits : ∀ c ∈ Nat.toDigits 10 n, c.isDigit = true := fun c =>
    Nat.isDigit_of_mem_toDigits (by decide) (by decide)
  have spelt : utf8 (toString (n : Int)) = (Nat.toDigits 10 n).map (·.val.toUInt8) := by
    rw [← digitsUtf8 digits, ← Nat.repr_eq_ofList_toDigits]
    rfl
  have some : (Nat.toDigits 10 n).map (·.val.toUInt8) ≠ [] := by simp [Nat.toDigits_ne_nil]
  rw [spelt]
  exact ⟨some, digitsDecimal digits, by rw [width, if_neg some, numeralValue n (Nat.lt_succ_of_le high) low]⟩

theorem decimalLetter {b : UInt8} (digit : 0x30 ≤ b ∧ b ≤ 0x39) : Letter b := by
  rw [← isNameByteIff, isNameByte]
  rw [UInt8.le_iff_toNat_le, UInt8.le_iff_toNat_le] at digit
  simp_all

theorem integerPrints {signed : Bool} {bits : Int} (low : 1 ≤ bits) (high : bits ≤ 256) :
    Prints spell lookup (.integer signed bits) := by
  obtain ⟨n, rfl⟩ := Int.eq_ofNat_of_zero_le (by omega : 0 ≤ bits)
  obtain ⟨some, decimal, number⟩ := numeralWidth (n := n) (by omega) (by omega)
  have spelt : write utf8 spell (.integer signed n) = stem signed ++ utf8 (toString (n : Int)) := by
    cases signed <;> rw [write, utf8Append, stem] <;> rfl
  have stems : ∀ b ∈ stem signed, Letter b := by cases signed <;> decide +kernel
  generalize utf8 (toString (n : Int)) = digits at *
  subst number
  refine .ofBase (.atom (.integer decimal (by omega))) ?_
  rw [spelt]
  refine .name (by simp [some]) fun b inside => ?_
  rcases List.mem_append.1 inside with first | last
  · exact stems b first
  · exact decimalLetter (decimal b last)

theorem structPrints {name : Bytes} {t : Ty ν} {n : ν} (found : lookup name = some t) (letters : ∀ b ∈ name, Letter b)
    (named : t.structName? = some n) (same : spell n = name) : Prints spell lookup t := by
  have keyword : Printed (utf8 "struct") [.name (utf8 "struct")] := .keyword (by decide)
  have spelt : t.write utf8 spell = utf8 "struct" ++ 0x20 :: name := by
    have shape : t.write utf8 spell = utf8 "struct " ++ spell n := by
      cases t <;> cases named <;> rw [write]
    rw [shape, same]
    rfl
  have own : Printed name (if name = [] then [] else [.name name]) := by
    split
    · rename_i empty
      rw [empty]
      exact .nil
    · rename_i some
      exact .name some letters
  refine .ofBase (.struct found) ?_
  rw [spelt, Base.tokens]
  exact keyword.append own.blank Printed.blankApart

theorem bracketsSucc (n : Nat) : brackets (n + 1) = brackets n ++ [.mark "[", .mark "]"] := by
  induction n with
  | zero => rfl
  | succ n ih =>
    calc brackets (n + 2) = .mark "[" :: .mark "]" :: brackets (n + 1) := rfl
      _ = .mark "[" :: .mark "]" :: (brackets n ++ [.mark "[", .mark "]"]) := by rw [ih]
      _ = brackets (n + 1) ++ [.mark "[", .mark "]"] := rfl

theorem arrayPrints {element : Ty ν} (prints : Prints spell lookup element) : Prints spell lookup (.array element) := by
  obtain ⟨⟨base, n⟩, denotes, printed⟩ := prints
  have shape : write utf8 spell (.array element) = element.write utf8 spell ++ (utf8 "[" ++ (utf8 "]" ++ [])) := by
    rw [write]
    rfl
  rw [Expr.tokens] at printed
  cases denotes with
  | of inner =>
    refine ⟨.of base (n + 1), ?_, ?_⟩
    · rw [← Function.iterate_succ_apply' Ty.array]
      exact .of inner
    · rw [Expr.tokens, bracketsSucc, ← List.append_assoc, shape]
      exact printed.beforeMark "[" (by decide) (.mark "]" (by decide) .nil)

theorem mappingPrints {key value : Ty ν} (first : Prints spell lookup key) (second : Prints spell lookup value) :
    Prints spell lookup (.mapping key value) := by
  obtain ⟨k, keyDenotes, keyPrinted⟩ := first
  obtain ⟨v, valueDenotes, valuePrinted⟩ := second
  have keyword : Printed (utf8 "mapping") [.name (utf8 "mapping")] := .keyword (by decide)
  have arrow : Printed (0x20 :: (utf8 "=>" ++ 0x20 :: value.write utf8 spell)) (.mark "=>" :: v.tokens) :=
    .blank (.mark "=>" (by decide) (.blank valuePrinted))
  refine .ofBase (.mapping keyDenotes valueDenotes) ?_
  have shape : write utf8 spell (.mapping key value) = utf8 "mapping" ++ (utf8 "(" ++
      (key.write utf8 spell ++ 0x20 :: (utf8 "=>" ++ 0x20 :: value.write utf8 spell) ++ utf8 ")")) := by
    simp only [write, List.append_assoc]
    rfl
  have tokens : (Base.mapping k v).tokens = [.name (utf8 "mapping")] ++
      .mark "(" :: ((k.tokens ++ .mark "=>" :: v.tokens) ++ [.mark ")"]) := by
    simp [Base.tokens]
  rw [shape, tokens]
  exact keyword.beforeMark "(" (by decide) ((keyPrinted.append arrow Printed.blankApart).closed ")" (by decide))

theorem componentsPrint {types : List (Ty ν)} (each : ∀ t ∈ types, Prints spell lookup t) :
    ∃ parts, List.Forall₂ (Expr.Denotes lookup) parts types ∧
      Printed (writeAll utf8 spell types) (listTokens parts) := by
  induction types with
  | nil => exact ⟨[], .nil, .nil⟩
  | cons t rest ih =>
    rw [List.forall_mem_cons] at each
    obtain ⟨e, denotes, printed⟩ := each.1
    obtain ⟨parts, others, listed⟩ := ih each.2
    refine ⟨e :: parts, .cons denotes others, ?_⟩
    cases others with
    | nil =>
      rw [listTokens, moreTokens, List.append_nil, writeAll]
      exact printed
    | cons first more =>
      rw [writeAll, List.append_assoc, listTokens, moreTokens]
      exact printed.beforeMark "," (by decide) listed

theorem tuplePrints {types : List (Ty ν)} (each : ∀ t ∈ types, Prints spell lookup t) :
    Prints spell lookup (.tuple types) := by
  obtain ⟨parts, denotes, printed⟩ := componentsPrint each
  have keyword : Printed (utf8 "tuple") [.name (utf8 "tuple")] := .keyword (by decide)
  refine .ofBase (.tuple denotes) ?_
  have shape : write utf8 spell (.tuple types) =
      utf8 "tuple" ++ (utf8 "(" ++ (writeAll utf8 spell types ++ utf8 ")")) := by
    rw [write, List.append_assoc]
    rfl
  rw [shape, Base.tokens, List.append_assoc]
  exact keyword.beforeMark "(" (by decide) (printed.closed ")" (by decide))

theorem printsKept (spell : ν → Bytes) (lookup : Bytes → Option (Ty ν)) : Kept (Prints spell lookup) where
  builtIn := builtInPrints
  integer := integerPrints
  array := arrayPrints
  mapping := mappingPrints
  tuple := tuplePrints

theorem writtenReads {s : Bytes} {t : Ty ν}
    (own : ∀ name u, lookup name = some u → ∃ n, u.structName? = some n ∧ spell n = name)
    (ok : parseBytes lookup s = .ok t) : parseBytes lookup (t.write utf8 spell) = .ok t := by
  have prints : Prints spell lookup t := by
    refine (printsKept spell lookup).parseBytes ?_ ok
    intro name u letters found
    obtain ⟨n, named, same⟩ := own name u found
    exact structPrints found (fun b inside => (isNameByteIff b).1 (letters b inside)) named same
  obtain ⟨e, denotes, printed⟩ := prints
  have spells := printed [] [] (by simp) .nil
  rw [List.append_nil, List.append_nil] at spells
  exact derivedParses ⟨spells, denotes⟩

end

mutual
theorem textUtf8 (t : Ty) : utf8 t.text = t.write utf8 utf8 := by
  cases t with
  | integer signed bits => cases signed <;> rfl
  | mapping key value =>
    have first := textUtf8 key
    have second := textUtf8 value
    rw [text] at first second ⊢
    simp only [write, utf8Append, first, second, id]
  | array element =>
    have inner := textUtf8 element
    rw [text] at inner ⊢
    simp only [write, utf8Append, inner, id]
  | tuple types =>
    have inner := textsUtf8 types
    rw [text]
    simp only [write, utf8Append, inner, id]
  | struct name members types => simp only [text, write, utf8Append, id]
  | named name => simp only [text, write, utf8Append, id]
  | _ => rfl

theorem textsUtf8 (types : List Ty) : utf8 (writeAll id id types) = writeAll utf8 utf8 types := by
  cases types with
  | nil => rfl
  | cons t rest =>
    have first := textUtf8 t
    rw [text] at first
    cases rest with
    | nil => exact first
    | cons u more =>
      have others := textsUtf8 (u :: more)
      simp only [writeAll, utf8Append, first, others, id]
end

/- A type that was read is printed as an expression that is read as the same type, if each name that is known stands
for a struct of that name: of any bytes, or of a text and its bytes. -/
theorem printedTypesRead (s : Bytes) :
    (∀ (lookup : Bytes → Option (Ty Bytes)) (t : Ty Bytes),
      (∀ name u, lookup name = some u → u.structName? = some name) →
      parseBytes lookup s = .ok t → parseBytes lookup (t.write utf8 id) = .ok t) ∧
    ∀ (lookup : Bytes → Option Ty) (t : Ty),
      (∀ name u, lookup name = some u → ∃ n, u.structName? = some n ∧ utf8 n = name) →
      parseBytes lookup s = .ok t → parse lookup t.text = .ok t := by
  constructor
  · intro lookup t own ok
    exact writtenReads (fun name u found => ⟨name, own name u found, rfl⟩) ok
  · intro lookup t own ok
    rw [parse, textUtf8]
    exact writtenReads own ok

def oddStructs (name : Bytes) : Option (Ty Bytes) :=
  if name = utf8 "bool" then some (.struct name ["on"] [.bool])
  else if name = [0xe9] then some (.struct name [] [])
  else none

theorem oddTypeRead : (∀ name u, oddStructs name = some u → u.structName? = some name) ∧
    ∃ t, parseBytes oddStructs (utf8 " mapping( uint08=>tuple(cell,bool [],struct bool," ++ 0xe9 :: utf8 ")[ ] [])") =
        .ok t ∧
      t.write utf8 id = utf8 "mapping(uint8 => tuple(TvmCell,bool[],struct bool,struct " ++ 0xe9 :: utf8 ")[][])" ∧
      parseBytes oddStructs (t.write utf8 id) = .ok t := by
  have own : ∀ name u, oddStructs name = some u → u.structName? = some name := by
    intro name u found
    unfold oddStructs at found
    split_ifs at found
    · cases found
      rfl
    · cases found
      rfl
  have read : parseBytes oddStructs
      (utf8 " mapping( uint08=>tuple(cell,bool [],struct bool," ++ 0xe9 :: utf8 ")[ ] [])") =
      .ok (.mapping (.uint 8) (.array (.array (.tuple [.cell, .array .bool, .struct (utf8 "bool") ["on"] [.bool],
        .struct [0xe9] [] []])))) := by
    rfl
  exact ⟨own, _, read, by rfl, (printedTypesRead _).1 _ _ own read⟩

end CellChain.Ty
