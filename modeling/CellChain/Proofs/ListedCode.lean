import Mathlib
import CellChain.Program.Basic
/-! What the listing of code tells. A listing is made of rows. A row of code begins with as many tabs as its block is
deep, so a block ends where a row has fewer. After the tabs stands a mnemonic, up to the first blank, and then the
operands that are shown. So two listings are the same only for code that is the same but for operands that are not
shown. -/
namespace CellChain

theorem partsAgree {P : Char → Prop} {a a' b b' : List Char} (same : a ++ b = a' ++ b') (each : ∀ c ∈ a, P c)
    (each' : ∀ c ∈ a', P c) (stop : ∀ c ∈ b.head?, ¬P c) (stop' : ∀ c ∈ b'.head?, ¬P c) : a = a' ∧ b = b' := by
  induction a generalizing a' with
  | nil =>
    cases a' with
    | nil => exact ⟨rfl, same⟩
    | cons c a' =>
      rw [List.nil_append] at same
      rw [same] at stop
      exact absurd (each' c List.mem_cons_self) (stop c rfl)
  | cons c a ih =>
    cases a' with
    | nil =>
      rw [List.nil_append] at same
      rw [← same] at stop'
      exact absurd (each c List.mem_cons_self) (stop' c rfl)
    | cons c' a' =>
      obtain ⟨rfl, rest⟩ := List.cons.inj same
      obtain ⟨rfl, tails⟩ := ih rest (List.forall_mem_cons.1 each).2 (List.forall_mem_cons.1 each').2
      exact ⟨rfl, tails⟩

def Figure (c : Char) : Prop := c.isDigit = true ∨ c = '-'

theorem figures (n : Int) : ∀ c ∈ (toString n).toList, Figure c := by
  have natural (k : Nat) : ∀ c ∈ k.repr.toList, Figure c := by
    intro c mem
    rw [Nat.repr_eq_ofList_toDigits, String.toList_ofList] at mem
    exact .inl (Nat.isDigit_of_mem_toDigits (by decide) (by decide) mem)
  intro c mem
  rw [Int.toString_eq_repr, Int.repr_eq_if] at mem
  split_ifs at mem
  · exact natural _ c mem
  · rw [String.toList_append] at mem
    rcases List.mem_append.1 mem with sign | digit
    · exact .inr (List.mem_singleton.1 sign)
    · exact natural _ c digit

theorem numberInj {n n' : Int} (same : toString n = toString n') : n = n' := by
  rwa [Int.toString_eq_repr, Int.toString_eq_repr, Int.repr_inj] at same

theorem numbersAgree {n n' : Int} {b b' : List Char} (same : (toString n).toList ++ b = (toString n').toList ++ b')
    (stop : ∀ c ∈ b.head?, ¬Figure c) (stop' : ∀ c ∈ b'.head?, ¬Figure c) : n = n' ∧ b = b' := by
  obtain ⟨numbers, rest⟩ := partsAgree same (figures n) (figures n') stop stop'
  exact ⟨numberInj (String.toList_inj.1 numbers), rest⟩

def operandText (operands : List Int) : List Char := (String.intercalate ", " (operands.map toString)).toList

def operandTail : List Int → List Char
  | [] => []
  | k :: rest => ',' :: ' ' :: operandText (k :: rest)

theorem operandTextCons (n : Int) (rest : List Int) :
    operandText (n :: rest) = (toString n).toList ++ operandTail rest := by
  cases rest with
  | nil => simp [operandText, operandTail]
  | cons k rest => simp [operandText, operandTail, String.intercalate_cons_cons, String.toList_append]

theorem operandTailStops (rest : List Int) : ∀ c ∈ (operandTail rest).head?, ¬Figure c := by
  cases rest with
  | nil => simp [operandTail]
  | cons k rest =>
    rintro c ⟨⟩
    simp [Figure]

theorem operandsAgree {operands operands' : List Int} (some : operands ≠ []) (some' : operands' ≠ [])
    (same : operandText operands = operandText operands') : operands = operands' := by
  induction operands generalizing operands' with
  | nil => exact absurd rfl some
  | cons n rest ih =>
    cases operands' with
    | nil => exact absurd rfl some'
    | cons n' rest' =>
      rw [operandTextCons, operandTextCons] at same
      obtain ⟨rfl, tails⟩ := numbersAgree same (operandTailStops rest) (operandTailStops rest')
      cases rest with
      | nil =>
        cases rest' with
        | nil => rfl
        | cons k' rest' => cases tails
      | cons k rest =>
        cases rest' with
        | nil => cases tails
        | cons k' rest' =>
          have others := (List.cons.inj (List.cons.inj tails).2).2
          rw [ih (List.cons_ne_nil _ _) (List.cons_ne_nil _ _) others]

theorem Opcode.knownOr (op : Opcode) : op ∈ all ∨ ∃ code, op = .unknown code := by
  cases op <;> simp [all]

def Inked (c : Char) : Prop := c ≠ ' ' ∧ c ≠ '\n' ∧ c ≠ '\t'

theorem inkedAll {text : List Char} (clean : ' ' ∉ text ∧ '\n' ∉ text ∧ '\t' ∉ text) : ∀ c ∈ text, Inked c :=
  fun _ mem => ⟨ne_of_mem_of_not_mem mem clean.1, ne_of_mem_of_not_mem mem clean.2.1,
    ne_of_mem_of_not_mem mem clean.2.2⟩

theorem Figure.inked {c : Char} (figure : Figure c) : Inked c := by
  rcases figure with digit | rfl
  · refine ⟨?_, ?_, ?_⟩ <;>
    · rintro rfl
      revert digit
      decide
  · exact ⟨by decide, by decide, by decide⟩

theorem numberSingle (n : Int) : '\n' ∉ (toString n).toList := fun mem => (figures n _ mem).inked.2.1 rfl

theorem Opcode.inked (op : Opcode) : ∀ c ∈ op.name.toList, Inked c := by
  rcases op.knownOr with known | ⟨code, rfl⟩
  · have each : ∀ a ∈ all, ' ' ∉ a.name.toList ∧ '\n' ∉ a.name.toList ∧ '\t' ∉ a.name.toList := by decide +kernel
    exact inkedAll (each op known)
  · intro c mem
    rw [Opcode.name, String.toList_append] at mem
    rcases List.mem_append.1 mem with stem | figure
    · exact inkedAll (by decide) c stem
    · exact (figures code c figure).inked

theorem Opcode.unknownBegins (code : Int) : "op_".toList <+: (unknown code).name.toList := by
  rw [Opcode.name, String.toList_append]
  exact List.prefix_append _ _

theorem Opcode.nameInj {op op' : Opcode} (same : op.name = op'.name) : op = op' := by
  have apart : ∀ a ∈ all, ¬"op_".toList <+: a.name.toList := by decide +kernel
  rcases op.knownOr with known | ⟨code, rfl⟩
  · rcases op'.knownOr with known' | ⟨code, rfl⟩
    · have each : ∀ a ∈ all, ∀ b ∈ all, a.name = b.name → a = b := by decide +kernel
      exact each op known op' known' same
    · exact absurd (same ▸ unknownBegins code) (apart op known)
  · rcases op'.knownOr with known' | ⟨code', rfl⟩
    · exact absurd (same ▸ unknownBegins code) (apart op' known')
    · rw [numberInj ((String.append_right_inj _).1 same)]

theorem Opcode.nameApart (op : Opcode) : ∀ text ∈ ["PUSHINT", "CALLREF"], op.name ≠ text := by
  rcases op.knownOr with known | ⟨code, rfl⟩
  · have each : ∀ a ∈ all, ∀ text ∈ ["PUSHINT", "CALLREF"], a.name ≠ text := by decide +kernel
    exact each op known
  · have each : ∀ text ∈ ["PUSHINT", "CALLREF"], ¬"op_".toList <+: text.toList := by decide +kernel
    exact fun text listed same => each text listed (same ▸ unknownBegins code)

namespace Instr

mutual
def shown : Instr → Instr
  | .pushInt x => .pushInt x
  | .simple op operands => .simple op (if op.stackOperands then [] else operands)
  | .callRef _ _ body => .callRef 0 0 (shownAll body)

def shownAll : List Instr → List Instr
  | [] => []
  | i :: rest => i.shown :: shownAll rest
end

def isCall : Instr → Bool
  | .callRef .. => true
  | _ => false

def tail : Instr → List Char
  | .pushInt x => ' ' :: x.text.toList
  | .simple op operands => if operands = [] ∨ op.stackOperands = true then [] else ' ' :: operandText operands
  | .callRef .. => [' ', '\x7b']

theorem tailBlank (i : Instr) : ∀ c ∈ i.tail.head?, ¬Inked c := by
  have blank : ¬Inked ' ' := fun inked => inked.1 rfl
  cases i with
  | pushInt x =>
    rintro c ⟨⟩
    exact blank
  | simple op operands =>
    simp only [tail]
    split_ifs
    · simp
    · rintro c ⟨⟩
      exact blank
  | callRef _ _ _ =>
    rintro c ⟨⟩
    exact blank

def rowText (i : Instr) : List Char := i.name.toList ++ i.tail

theorem textOfPush (x : Word) : (pushInt x).text.toList = (pushInt x).rowText := by
  simp [text, rowText, name, tail, String.toList_append]

theorem textOfSimple (op : Opcode) (operands : List Int) :
    (simple op operands).text.toList = (simple op operands).rowText := by
  simp only [text, rowText, name, tail, Bool.or_eq_true, List.isEmpty_iff]
  split_ifs
  · rw [List.append_nil]
  · simp [String.toList_append, operandText]

theorem nameInked (i : Instr) : ∀ c ∈ i.name.toList, Inked c := by
  have pushInt : ∀ c ∈ "PUSHINT".toList, Inked c := inkedAll (by decide)
  have callRef : ∀ c ∈ "CALLREF".toList, Inked c := inkedAll (by decide)
  cases i with
  | pushInt _ => exact pushInt
  | simple op _ => exact op.inked
  | callRef _ _ _ => exact callRef

theorem operandsSingle (operands : List Int) : '\n' ∉ operandText operands := by
  induction operands with
  | nil => simp [operandText]
  | cons n rest ih =>
    rw [operandTextCons]
    cases rest with
    | nil => simpa [operandTail] using numberSingle n
    | cons k rest => simpa [operandTail] using ⟨numberSingle n, ih⟩

theorem rowTextSingle (i : Instr) : '\n' ∉ i.rowText := by
  have named : '\n' ∉ i.name.toList := fun mem => (i.nameInked _ mem).2.1 rfl
  refine fun mem => (List.mem_append.1 mem).elim named ?_
  cases i with
  | pushInt x => simpa [tail, Word.text] using numberSingle x.toInt
  | simple op operands =>
    simp only [tail]
    split_ifs
    · exact List.not_mem_nil
    · simpa using operandsSingle operands
  | callRef _ _ _ => simp [tail]

theorem shownSimple {op : Opcode} {operands operands' : List Int}
    (tails : (simple op operands).tail = (simple op operands').tail) :
    (simple op operands).shown = (simple op operands').shown := by
  simp only [tail] at tails
  unfold shown
  cases taken : op.stackOperands with
  | true => rfl
  | false =>
    simp only [taken, Bool.false_eq_true, or_false] at tails
    split_ifs at tails with none none' none'
    · rw [none, none']
    · rw [operandsAgree none none' (List.cons.inj tails).2]

/- A row determines what is shown of its instruction, but for the body of a call. -/
theorem shownOf {i j : Instr} (same : i.rowText = j.rowText) :
    i.shown = j.shown ∧ i.isCall = false ∧ j.isCall = false ∨
      ∃ a r body a' r' body', i = .callRef a r body ∧ j = .callRef a' r' body' := by
  obtain ⟨letters, tails⟩ := partsAgree same i.nameInked j.nameInked i.tailBlank j.tailBlank
  have names := String.toList_inj.1 letters
  cases i with
  | pushInt x =>
    cases j with
    | pushInt y =>
      have texts := String.toList_inj.1 (List.cons.inj tails).2
      rw [BitVec.toInt_inj.1 (numberInj texts)]
      exact .inl ⟨rfl, rfl, rfl⟩
    | simple op _ => exact absurd names.symm (op.nameApart _ (by simp [name]))
    | callRef _ _ _ => exact absurd names (by simp [name])
  | simple op operands =>
    cases j with
    | pushInt _ => exact absurd names (op.nameApart _ (by simp [name]))
    | simple op' operands' =>
      cases Opcode.nameInj names
      exact .inl ⟨shownSimple tails, rfl, rfl⟩
    | callRef _ _ _ => exact absurd names (op.nameApart _ (by simp [name]))
  | callRef a r body =>
    cases j with
    | pushInt _ => exact absurd names (by simp [name])
    | simple op _ => exact absurd names.symm (op.nameApart _ (by simp [name]))
    | callRef a' r' body' => exact .inr ⟨a, r, body, a', r', body', rfl, rfl⟩

end Instr

namespace Program

def row (indent : Nat) (text : List Char) : List Char := List.replicate indent '\t' ++ text

mutual
def instrRows (indent : Nat) : Instr → List (List Char)
  | .callRef a r body =>
    row indent (Instr.callRef a r body).rowText :: (codeRows (indent + 1) body ++ [row indent ['\x7d']])
  | .pushInt x => [row indent (Instr.pushInt x).rowText]
  | .simple op operands => [row indent (Instr.simple op operands).rowText]

def codeRows (indent : Nat) : List Instr → List (List Char)
  | [] => []
  | i :: rest => instrRows indent i ++ codeRows indent rest
end

def written (rows : List (List Char)) : List Char := rows.flatMap (· ++ ['\n'])

theorem writtenAppend (rows rows' : List (List Char)) : written (rows ++ rows') = written rows ++ written rows' :=
  List.flatMap_append

theorem writtenCons (first : List Char) (rows : List (List Char)) :
    written (first :: rows) = first ++ '\n' :: written rows := by
  simp [written]

theorem lineWritten (indent : Nat) (text : String) : (line indent text).toList = written [row indent text.toList] := by
  simp [line, written, row, String.toList_append]

mutual
theorem instrWritten (indent : Nat) : (i : Instr) → (instrLines indent i).toList = written (instrRows indent i)
  | .callRef a r body => by
    have opened : "CALLREF \x7b".toList = (Instr.callRef a r body).rowText := by
      simp [Instr.rowText, Instr.name, Instr.tail]
    rw [instrLines, String.toList_append, String.toList_append, lineWritten, lineWritten, codeWritten, opened,
      instrRows, ← writtenAppend, ← writtenAppend]
    rfl
  | .pushInt x => by
    rw [instrLines, lineWritten, Instr.textOfPush]
    rfl
  | .simple op operands => by
    rw [instrLines, lineWritten, Instr.textOfSimple]
    rfl

theorem codeWritten (indent : Nat) : (code : List Instr) →
    (codeLines indent code).toList = written (codeRows indent code)
  | [] => rfl
  | i :: rest => by
    rw [codeLines, String.toList_append, instrWritten, codeWritten, codeRows, writtenAppend]
end

theorem writtenInj {rows rows' : List (List Char)} (single : ∀ r ∈ rows, '\n' ∉ r) (single' : ∀ r ∈ rows', '\n' ∉ r)
    (same : written rows = written rows') : rows = rows' := by
  induction rows generalizing rows' with
  | nil =>
    cases rows' with
    | nil => rfl
    | cons r rows' => simp [written] at same
  | cons r rows ih =>
    cases rows' with
    | nil => simp [written] at same
    | cons r' rows' =>
      rw [writtenCons, writtenCons] at same
      obtain ⟨own, others⟩ := List.forall_mem_cons.1 single
      obtain ⟨own', others'⟩ := List.forall_mem_cons.1 single'
      have divided := partsAgree (P := (· ≠ '\n')) same (fun _ mem => ne_of_mem_of_not_mem mem own)
        (fun _ mem => ne_of_mem_of_not_mem mem own') (by simp) (by simp)
      rw [divided.1, ih others others' (List.cons.inj divided.2).2]

def Ends (indent : Nat) (rows : List (List Char)) : Prop := ∀ r ∈ rows.head?, ¬List.replicate indent '\t' <+: r

theorem rowNotEnd (indent : Nat) (text : List Char) (rows : List (List Char)) :
    ¬Ends indent (row indent text :: rows) :=
  fun ends => ends _ rfl (List.prefix_append _ _)

theorem instrFirst (indent : Nat) (i : Instr) : ∃ rows, instrRows indent i = row indent i.rowText :: rows := by
  cases i with
  | pushInt _ => exact ⟨_, rfl⟩
  | simple _ _ => exact ⟨_, rfl⟩
  | callRef _ _ _ => exact ⟨_, rfl⟩

theorem instrOnly {i : Instr} (leaf : i.isCall = false) (indent : Nat) :
    instrRows indent i = [row indent i.rowText] := by
  cases i with
  | pushInt _ => rfl
  | simple _ _ => rfl
  | callRef _ _ _ => cases leaf

theorem closingEnds (indent : Nat) (rows : List (List Char)) : Ends (indent + 1) (row indent ['\x7d'] :: rows) := by
  rintro r ⟨⟩ deeper
  rw [List.replicate_succ', row] at deeper
  have closing := (List.prefix_append_right_inj _).1 deeper
  simp at closing

theorem firstAgree {indent : Nat} {i j : Instr} {rows rows' : List (List Char)}
    (same : instrRows indent i ++ rows = instrRows indent j ++ rows') : i.rowText = j.rowText := by
  obtain ⟨_, first⟩ := instrFirst indent i
  obtain ⟨_, first'⟩ := instrFirst indent j
  rw [first, first'] at same
  exact List.append_cancel_left (List.cons.inj same).1

theorem leafAgree {indent : Nat} {i j : Instr} {rows rows' : List (List Char)} (leaf : i.isCall = false)
    (same : instrRows indent i ++ rows = instrRows indent j ++ rows') : i.shown = j.shown ∧ rows = rows' := by
  rcases Instr.shownOf (firstAgree same) with ⟨own, -, leaf'⟩ | ⟨_, _, _, _, _, _, rfl, -⟩
  · rw [instrOnly leaf, instrOnly leaf'] at same
    exact ⟨own, (List.cons.inj same).2⟩
  · cases leaf

mutual
theorem instrAgree (indent : Nat) : (i : Instr) → ∀ {j : Instr} {rows rows' : List (List Char)},
    instrRows indent i ++ rows = instrRows indent j ++ rows' → i.shown = j.shown ∧ rows = rows'
  | .pushInt _, _, _, _, same => leafAgree rfl same
  | .simple _ _, _, _, _, same => leafAgree rfl same
  | .callRef a r body, j, rows, rows', same => by
    rcases Instr.shownOf (firstAgree same) with ⟨-, leaf, -⟩ | ⟨_, _, _, a', r', body', -, rfl⟩
    · cases leaf
    · simp only [instrRows, List.cons_append, List.append_assoc, List.cons.injEq] at same
      obtain ⟨inner, behind⟩ := codeAgree (indent + 1) body (closingEnds _ _) (closingEnds _ _) same.2
      rw [Instr.shown, Instr.shown, inner]
      exact ⟨rfl, (List.cons.inj behind).2⟩

theorem codeAgree (indent : Nat) : (code : List Instr) → ∀ {code' : List Instr} {rows rows' : List (List Char)},
    Ends indent rows → Ends indent rows' → codeRows indent code ++ rows = codeRows indent code' ++ rows' →
      Instr.shownAll code = Instr.shownAll code' ∧ rows = rows'
  | [], [], _, _, _, _, same => ⟨rfl, same⟩
  | [], j :: code', rows, rows', ends, _, same => by
    -- A block that goes on begins with its tabs, which the end of the other does not have.
    obtain ⟨more, first⟩ := instrFirst indent j
    rw [codeRows, codeRows, first, List.nil_append] at same
    subst same
    exact absurd ends (rowNotEnd _ _ _)
  | i :: code, [], rows, rows', _, ends', same => by
    obtain ⟨more, first⟩ := instrFirst indent i
    rw [codeRows, codeRows, first, List.nil_append] at same
    subst same
    exact absurd ends' (rowNotEnd _ _ _)
  | i :: code, j :: code', rows, rows', ends, ends', same => by
    rw [codeRows, codeRows, List.append_assoc, List.append_assoc] at same
    obtain ⟨own, behind⟩ := instrAgree indent i same
    obtain ⟨others, rest⟩ := codeAgree indent code ends ends' behind
    rw [Instr.shownAll, Instr.shownAll, own, others]
    exact ⟨rfl, rest⟩
end

theorem rowSingle {indent : Nat} {text : List Char} (single : '\n' ∉ text) : '\n' ∉ row indent text := by
  simp [row, single]

mutual
theorem instrSingle (indent : Nat) : (i : Instr) → ∀ r ∈ instrRows indent i, '\n' ∉ r
  | .pushInt _ => List.forall_mem_singleton.2 (rowSingle (Instr.rowTextSingle _))
  | .simple _ _ => List.forall_mem_singleton.2 (rowSingle (Instr.rowTextSingle _))
  | .callRef a r body => by
    rw [instrRows]
    refine List.forall_mem_cons.2 ⟨rowSingle (Instr.rowTextSingle _), List.forall_mem_append.2 ⟨codeSingle _ body, ?_⟩⟩
    exact List.forall_mem_singleton.2 (rowSingle (by simp))

theorem codeSingle (indent : Nat) : (code : List Instr) → ∀ r ∈ codeRows indent code, '\n' ∉ r
  | [] => List.forall_mem_nil _
  | i :: rest => List.forall_mem_append.2 ⟨instrSingle indent i, codeSingle indent rest⟩
end

end Program

end CellChain
