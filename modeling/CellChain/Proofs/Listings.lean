import Mathlib
import CellChain.Proofs.Execution
import CellChain.Proofs.ListedCode
/-! The listing of a program determines it, but for what is not shown: the operands of the forms that take them from the
stack, the counts of calls, and identifiers that no function has. None of these matters when code is run. -/
namespace CellChain

inductive SameEnd : EStateM.Result Halt Machine Unit → EStateM.Result Halt Machine Unit → Prop
  | done (m : Machine) : SameEnd (.ok () m) (.ok () m)
  | fault (kind : Fault) {site site' : Option Instr} (m : Machine)
      (texts : site.map Instr.text = site'.map Instr.text) :
      SameEnd (.error (.fault kind site) m) (.error (.fault kind site') m)
  | broken (m : Machine) : SameEnd (.error .broken m) (.error .broken m)

namespace SameEnd

theorem refl : (r : EStateM.Result Halt Machine Unit) → SameEnd r r
  | .ok () m => .done m
  | .error (.fault kind _) m => .fault kind m rfl
  | .error .broken m => .broken m

theorem symm {r r' : EStateM.Result Halt Machine Unit} (same : SameEnd r r') : SameEnd r' r := by
  cases same with
  | done m => exact .done m
  | fault kind m texts => exact .fault kind m texts.symm
  | broken m => exact .broken m

theorem trans {r r' r'' : EStateM.Result Halt Machine Unit} (one : SameEnd r r') (two : SameEnd r' r'') :
    SameEnd r r'' := by
  cases one with
  | done m => exact two
  | fault kind m texts =>
    cases two with
    | fault _ _ texts' => exact .fault kind m (texts.trans texts')
  | broken m => exact two

theorem blamed {h h' : Halt} {m m' : Machine} (same : SameEnd (.error h m) (.error h' m')) {i j : Instr}
    (texts : i.text = j.text) : SameEnd (.error (h.blamedOn i) m) (.error (h'.blamedOn j) m') := by
  cases same with
  | @fault kind site site' _ sites =>
    cases site with
    | none =>
      cases site' with
      | none => exact .fault kind m (congrArg some texts)
      | some _ => cases sites
    | some s =>
      cases site' with
      | none => cases sites
      | some _ => exact .fault kind m sites
  | broken _ => exact .broken m

end SameEnd

namespace Instr

theorem shownLength (code : List Instr) : (shownAll code).length = code.length := by
  induction code with
  | nil => rfl
  | cons i rest ih => rw [shownAll, List.length_cons, List.length_cons, ih]

theorem shownText (i : Instr) : i.shown.text = i.text := by
  cases i with
  | pushInt x => rfl
  | simple op operands => cases taken : op.stackOperands <;> simp [shown, text, taken]
  | callRef a r body => rw [shown, text, text, shownLength]

end Instr

namespace Machine

theorem simpleShown (op : Opcode) (operands : List Int) :
    simple op (if op.stackOperands then [] else operands) = simple op operands := by
  cases op <;> rfl

mutual
theorem stepShown : (i : Instr) → ∀ m : Machine, SameEnd (step i m) (step i.shown m)
  | .pushInt x, m => .refl _
  | .simple op operands, m => by
    rw [Instr.shown, step, step, simpleShown]
    exact .refl _
  | .callRef a r body, m => by
    rw [Instr.shown, step, step]
    exact runShown body m

theorem runShown : (code : List Instr) → ∀ m : Machine, SameEnd (run code m) (run (Instr.shownAll code) m)
  | [], m => .refl _
  | i :: rest, m => by
    have own := stepShown i { m with executed := m.executed + 1 }
    rw [Instr.shownAll]
    generalize one : step i { m with executed := m.executed + 1 } = result at own
    generalize other : step i.shown { m with executed := m.executed + 1 } = result' at own
    cases own with
    | done m' =>
      rw [runConsOk one, runConsOk other]
      exact runShown rest m'
    | fault kind m' texts =>
      -- A fault without a site is blamed on one of two instructions of the same text.
      rw [runConsError one, runConsError other]
      exact (SameEnd.fault kind m' texts).blamed i.shownText.symm
    | broken m' =>
      rw [runConsError one, runConsError other]
      exact .broken m'
end

end Machine

def Fragment.shown (f : Fragment) : Fragment :=
  { f with id := if f.kind.hasId then f.id else 0, code := Instr.shownAll f.code }

namespace Program

def shown (p : Program) : Program := { p with fragments := p.fragments.map Fragment.shown }

mutual
theorem instrLinesShown (indent : Nat) : (i : Instr) → instrLines indent i.shown = instrLines indent i
  | .pushInt _ => rfl
  | .simple op operands => by
    have texts := (Instr.simple op operands).shownText
    rw [Instr.shown] at texts ⊢
    rw [instrLines, instrLines, texts]
  | .callRef a r body => by
    rw [Instr.shown, instrLines, instrLines, codeLinesShown]

theorem codeLinesShown (indent : Nat) : (code : List Instr) →
    codeLines indent (Instr.shownAll code) = codeLines indent code
  | [] => rfl
  | i :: rest => by
    rw [Instr.shownAll, codeLines, codeLines, instrLinesShown, codeLinesShown]
end

theorem fragmentLinesShown (f : Fragment) : fragmentLines f.shown = fragmentLines f := by
  unfold fragmentLines Fragment.shown
  cases f.kind.hasId with
  | true => simp only [codeLinesShown, if_true]
  | false => simp only [codeLinesShown, Bool.false_eq_true, if_false]

theorem shownListing (p : Program) : p.shown.listing = p.listing := by
  unfold listing shown
  simp only [List.map_map, Function.comp_def, fragmentLinesShown]

def arity (f : Fragment) : List Char := (toString f.args).toList ++ " -> ".toList ++ (toString f.rets).toList

def arityRow (f : Fragment) : List Char :=
  if f.kind.hasId then "; id 0x".toList ++ Text.hexPad 8 f.id.toNat ++ ", ".toList ++ arity f
  else "; ".toList ++ arity f

def fragmentRows (f : Fragment) : List (List Char) :=
  [] :: (".fragment ".toList ++ f.name.toList ++ ", ".toList ++ f.kind.name.toList) :: arityRow f ::
    (f.name.toList ++ [':']) :: codeRows 1 f.code

def listingRows (p : Program) : List (List Char) :=
  ("; contract ".toList ++ p.contract.toList) :: p.fragments.flatMap fragmentRows

theorem fragmentWritten (f : Fragment) : ("\n" ++ fragmentLines f).toList = written (fragmentRows f) := by
  unfold fragmentLines fragmentRows arityRow arity
  cases f.kind.hasId with
  | true => simp [String.toList_append, lineWritten, codeWritten, written, row, hexId]
  | false => simp [String.toList_append, lineWritten, codeWritten, written, row]

theorem listingWritten (p : Program) : p.listing.toList = written (listingRows p) := by
  have each : (p.fragments.map fun f => "\n" ++ fragmentLines f).flatMap String.toList =
      written (p.fragments.flatMap fragmentRows) := by
    induction p.fragments with
    | nil => rfl
    | cons f rest ih => rw [List.map_cons, List.flatMap_cons, List.flatMap_cons, writtenAppend, fragmentWritten, ih]
  rw [listing, String.toList_append, lineWritten, String.toList_join, each, listingRows, writtenCons,
    String.toList_append]
  simp [written, row]

theorem hexDigitInj {n m : Nat} (small : n < 16) (small' : m < 16) (same : Text.hexDigit n = Text.hexDigit m) :
    n = m := by
  have each : ∀ a < 16, ∀ b < 16, Text.hexDigit a = Text.hexDigit b → a = b := by decide +kernel
  exact each n small m small' same

theorem hexPadLength (width n : Nat) : (Text.hexPad width n).length = width := by
  induction width generalizing n with
  | zero => rfl
  | succ width ih => rw [Text.hexPad, List.length_append, ih, List.length_singleton]

theorem hexPadInj {width n m : Nat} (small : n < 16 ^ width) (small' : m < 16 ^ width)
    (same : Text.hexPad width n = Text.hexPad width m) : n = m := by
  induction width generalizing n m with
  | zero => omega
  | succ width ih =>
    rw [Text.hexPad, Text.hexPad] at same
    obtain ⟨front, last⟩ := List.append_inj' same rfl
    rw [Nat.pow_succ] at small small'
    have fronts := ih (by omega) (by omega) front
    have lasts := hexDigitInj (by omega) (by omega) (List.cons.inj last).1
    omega

theorem kindNameInj {k k' : FragmentKind} (same : k.name = k'.name) : k = k' := by
  revert same
  cases k <;> cases k' <;> decide

theorem arityAgree {f g : Fragment} (same : arity f = arity g) : f.args = g.args ∧ f.rets = g.rets := by
  have blank : ¬Figure ' ' := by simp [Figure]
  unfold arity at same
  rw [List.append_assoc, List.append_assoc] at same
  obtain ⟨arguments, behind⟩ := numbersAgree same (by simpa using blank) (by simpa using blank)
  exact ⟨arguments, numberInj (String.toList_inj.1 (List.append_cancel_left behind))⟩

theorem arityRowAgree {f g : Fragment} (kinds : f.kind = g.kind) (same : arityRow f = arityRow g) :
    f.args = g.args ∧ f.rets = g.rets ∧ (f.kind.hasId = true → f.id = g.id) := by
  unfold arityRow at same
  rw [← kinds] at same
  split_ifs at same with identified
  · simp only [List.append_assoc] at same
    obtain ⟨digits, behind⟩ := List.append_inj (List.append_cancel_left same) (by rw [hexPadLength, hexPadLength])
    obtain ⟨arguments, results⟩ := arityAgree (List.append_cancel_left behind)
    have ids := hexPadInj f.id.toNat_lt g.id.toNat_lt digits
    exact ⟨arguments, results, fun _ => UInt32.toNat_inj.1 ids⟩
  · obtain ⟨arguments, results⟩ := arityAgree (List.append_cancel_left same)
    exact ⟨arguments, results, fun identified' => absurd identified' identified⟩

theorem fragmentAgree {f g : Fragment} {rows rows' : List (List Char)} (ends : Ends 1 rows) (ends' : Ends 1 rows')
    (same : fragmentRows f ++ rows = fragmentRows g ++ rows') : f.shown = g.shown ∧ rows = rows' := by
  simp only [fragmentRows, List.cons_append, List.cons.injEq, true_and] at same
  obtain ⟨head, arities, label, code⟩ := same
  have names := String.toList_inj.1 (List.append_cancel_right label)
  have kinds : f.kind = g.kind := by
    rw [names] at head
    exact kindNameInj (String.toList_inj.1 (List.append_cancel_left head))
  obtain ⟨arguments, results, ids⟩ := arityRowAgree kinds arities
  obtain ⟨codes, behind⟩ := codeAgree 1 f.code ends ends' code
  have shownIds : (if f.kind.hasId then f.id else 0) = if g.kind.hasId then g.id else 0 := by
    rw [← kinds]
    split_ifs with identified
    · exact ids identified
    · rfl
  refine ⟨?_, behind⟩
  rw [Fragment.shown, Fragment.shown, shownIds, codes, names, kinds, arguments, results]

theorem fragmentsEnd (fs : List Fragment) : Ends 1 (fs.flatMap fragmentRows) := by
  cases fs with
  | nil => simp [Ends]
  | cons f rest =>
    rintro r ⟨⟩
    decide

theorem fragmentsAgree {fs gs : List Fragment} (same : fs.flatMap fragmentRows = gs.flatMap fragmentRows) :
    fs.map Fragment.shown = gs.map Fragment.shown := by
  induction fs generalizing gs with
  | nil =>
    cases gs with
    | nil => rfl
    | cons g gs => cases same
  | cons f fs ih =>
    cases gs with
    | nil => cases same
    | cons g gs =>
      obtain ⟨own, others⟩ := fragmentAgree (fragmentsEnd fs) (fragmentsEnd gs) same
      rw [List.map_cons, List.map_cons, own, ih others]

def Plain (p : Program) : Prop := '\n' ∉ p.contract.toList ∧ ∀ f ∈ p.fragments, '\n' ∉ f.name.toList

instance (p : Program) : Decidable p.Plain := by
  unfold Plain
  infer_instance

theorem hexPadSingle (width n : Nat) : '\n' ∉ Text.hexPad width n := by
  have each : ∀ a < 16, '\n' ≠ Text.hexDigit a := by decide +kernel
  induction width generalizing n with
  | zero => exact List.not_mem_nil
  | succ width ih =>
    rw [Text.hexPad, List.mem_append, List.mem_singleton]
    exact not_or.2 ⟨ih _, each _ (Nat.mod_lt _ (by decide))⟩

theorem arityRowSingle (f : Fragment) : '\n' ∉ arityRow f := by
  have own : '\n' ∉ arity f := by simpa [arity] using ⟨numberSingle f.args, numberSingle f.rets⟩
  unfold arityRow
  split_ifs
  · simp [own, hexPadSingle]
  · simp [own]

theorem listingSingle {p : Program} (plain : p.Plain) : ∀ r ∈ listingRows p, '\n' ∉ r := by
  refine List.forall_mem_cons.2 ⟨by simpa using plain.1, fun r mem => ?_⟩
  obtain ⟨f, inside, mem⟩ := List.mem_flatMap.1 mem
  have named := plain.2 f inside
  have kinded : '\n' ∉ f.kind.name.toList := by cases f.kind <;> decide
  have each : ∀ r ∈ fragmentRows f, '\n' ∉ r := by
    simp only [fragmentRows, List.forall_mem_cons]
    exact ⟨by simp, by simp [named, kinded], arityRowSingle f, by simp [named], codeSingle 1 f.code⟩
  exact each r mem

theorem listingIff {p q : Program} (plain : p.Plain) (plain' : q.Plain) :
    p.listing = q.listing ↔ p.shown = q.shown := by
  constructor
  · intro same
    have rows : listingRows p = listingRows q := by
      refine writtenInj (listingSingle plain) (listingSingle plain') ?_
      rw [← listingWritten, ← listingWritten, same]
    obtain ⟨head, fragments⟩ := List.cons.inj rows
    have contracts := String.toList_inj.1 (List.append_cancel_left head)
    rw [shown, shown, contracts, fragmentsAgree fragments]
  · intro same
    rw [← shownListing, same, shownListing]

end Program

structure Fragment.Alike (f g : Fragment) : Prop where
  name : f.name = g.name
  kind : f.kind = g.kind
  args : f.args = g.args
  rets : f.rets = g.rets
  id : f.kind.hasId = true → f.id = g.id
  runs : ∀ m : Machine, SameEnd (Machine.run f.code m) (Machine.run g.code m)

theorem Fragment.alikeOfShown {f g : Fragment} (same : f.shown = g.shown) : f.Alike g := by
  simp only [Fragment.shown, Fragment.mk.injEq] at same
  obtain ⟨name, kind, id, args, rets, code⟩ := same
  refine ⟨name, kind, args, rets, fun identified => ?_, fun m => ?_⟩
  · rwa [← kind, if_pos identified, if_pos identified] at id
  · have first := Machine.runShown f.code m
    rw [code] at first
    exact first.trans (Machine.runShown g.code m).symm

theorem listingDetermines {p q : Program} (plain : p.Plain) (plain' : q.Plain) :
    (p.listing = q.listing ↔ p.shown = q.shown) ∧
    (p.listing = q.listing → p.contract = q.contract ∧ List.Forall₂ Fragment.Alike p.fragments q.fragments) := by
  refine ⟨Program.listingIff plain plain', fun same => ?_⟩
  have shown := (Program.listingIff plain plain').1 same
  simp only [Program.shown, Program.mk.injEq] at shown
  refine ⟨shown.1, ?_⟩
  have each : List.Forall₂ Eq (p.fragments.map Fragment.shown) (q.fragments.map Fragment.shown) := by
    rw [List.forall₂_eq_eq_eq]
    exact shown.2
  rw [List.forall₂_map_left_iff, List.forall₂_map_right_iff] at each
  exact each.imp fun _ _ => Fragment.alikeOfShown

def wheel (operands : List Int) (arguments results : Int) : Program :=
  ⟨"Wheel", [⟨"turn_decode", .decode, 5, 1, 1,
    [.simple .null [], .callRef arguments results [.pushInt 2, .pushInt 0, .simple .revX operands]]⟩]⟩

theorem wheelsTurnAlike :
    wheel [2, 0] 2 2 ≠ wheel [9] 0 (-1) ∧ (wheel [2, 0] 2 2).listing = (wheel [9] 0 (-1)).listing ∧
    List.Forall₂ Fragment.Alike (wheel [2, 0] 2 2).fragments (wheel [9] 0 (-1)).fragments := by
  have determined := listingDetermines (p := wheel [2, 0] 2 2) (q := wheel [9] 0 (-1)) (by decide) (by decide)
  have same : (wheel [2, 0] 2 2).listing = (wheel [9] 0 (-1)).listing := determined.1.2 rfl
  exact ⟨by simp [wheel], same, (determined.2 same).2⟩

end CellChain
