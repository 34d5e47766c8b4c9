import Mathlib
import CellChain.Proofs.Fragments
/-! Round trips of a program: what one of its fragments makes of values, another one takes apart into the same
values. -/
namespace CellChain

open Machine Emit

theorem fragmentMarks {target : Target} {types others : List Ty} {p q : Position} {marks marks' : List Bool}
    {input output' : List Value → List Value} {output : Builder → Value} {a b : List Instr} (alike : p.Alike q)
    (made : Assembles target types p marks input output a)
    (taken : Disassembles target others q marks' output' b) : marks = marks' := by
  obtain ⟨p', placed, done⟩ := made.placed
  obtain ⟨q', placed', done'⟩ := taken.placed
  exact Position.placedAlike alike placed done placed' done'

theorem countedFrom {target : Target} {offset : Int} {names : List String} {types : List Ty} {p : Position}
    (begun : Position.start target offset names types target.cell = .ok p)
    (bits : offset + Ty.bitsAll target types ≤ Text.largestInt) (few : Ty.slotsAll types ≤ 254) :
    Ty.Counted target p.bits types := by
  rw [(Position.startOk begun).2.2.2.1]
  exact .ofSlots bits few

theorem fewWithin {target : Target} {types : List Ty} {p : Position} {marks : List Bool}
    {input : List Value → List Value} {output : Builder → Value} {code : List Instr}
    (made : Assembles target types p marks input output code) (few : Ty.slotsAll types ≤ 254) : Within code :=
  made.within (by simp only [operandLimit]; omega)

def StateReturns (target : Target) (u : SourceUnit) (c : Contract) (program : Program) : Prop :=
  ∃ load store, load ∈ program.fragments ∧ store ∈ program.fragments ∧
    Lower.loadState target (u.stateMembers c) = .ok load ∧ Lower.storeState target (u.stateMembers c) = .ok store ∧
    ∀ vs, HaveTypes target ((u.stateMembers c).map Prod.snd) vs →
      Ty.slotsAll ((u.stateMembers c).map Prod.snd) ≤ 254 →
      Ty.bitsAll target ((u.stateMembers c).map Prod.snd) ≤ Text.largestInt →
      ∃ root vs', Value.sameAll vs' vs = true ∧ ∀ rest,
        (∀ old n, ∃ n', run store.code ⟨vs.reverse ++ rest, old, target.cell, n⟩ =
          .ok () ⟨rest, root, target.cell, n'⟩) ∧
        ∀ n, ∃ n', run load.code ⟨rest, root, target.cell, n⟩ =
          .ok () ⟨vs'.reverse ++ rest, root, target.cell, n'⟩

def AnswersReturn (target : Target) (c : Contract) (program : Program) : Prop :=
  ∀ f ∈ c.functions, ∀ g ∈ c.functions, f.isPublic = true → f.kind = .function → g.isPublic = true →
    Ty.bareAll (Lower.types g.params) = Ty.bareAll (Lower.types f.returns) →
    ∃ encode decode, encode ∈ program.fragments ∧ decode ∈ program.fragments ∧
      Lower.encode target f = .ok encode ∧ Lower.decode target g = .ok decode ∧
      ∀ vs, HaveTypes target (Lower.types f.returns) vs → Ty.slotsAll (Lower.types f.returns) ≤ 254 →
        Lower.functionIdBits + Ty.bitsAll target (Lower.types f.returns) ≤ Text.largestInt →
        ∃ cell vs', (cell.bits.take 32).length = 32 ∧
          (Slice.bitsValue (cell.bits.take 32)).toNat = (f.id ||| answerBit).toNat ∧
          Value.sameAll vs' vs = true ∧ ∀ rest,
          Leads target.cell encode.code (vs.reverse ++ rest) (.cell cell :: rest) ∧
          Leads target.cell decode.code (.slice (.ofCell cell) :: rest) (vs'.reverse ++ rest)

/- A struct that is turned into a builder is read again from the cell that the builder ends as. -/
def StructsReturn (target : Target) (u : SourceUnit) (c : Contract) (program : Program) : Prop :=
  ∀ name names types, .struct name names types ∈ Lower.usedStructs u c → Lower.Encodable name names types →
    ∃ default toBuilder ofSlice, toBuilder ∈ program.fragments ∧ ofSlice ∈ program.fragments ∧
      Lower.helpers target name names types = .ok [default, toBuilder, ofSlice] ∧
      ∀ vs, HaveTypes target types vs → Ty.slotsAll types ≤ 254 → Ty.bitsAll target types ≤ Text.largestInt →
        ∃ vs', Value.sameAll vs' vs = true ∧ ∀ rest,
          Leads target.cell (toBuilder.code ++ [.simple .endC [], .simple .cToS []] ++ ofSlice.code)
          (.tuple vs :: rest) (.tuple vs' :: rest)

theorem runPopRoot (root old : Cell) (rest : List Value) (limits : Capacity) (n : Nat) :
    run [.simple .popRoot []] ⟨.cell root :: rest, old, limits, n⟩ = .ok () ⟨rest, root, limits, n + 1⟩ := by
  rw [runConsOk (by rw [step]; rfl), runNil]

theorem runPushRoot (root : Cell) (rest : List Value) (limits : Capacity) (n : Nat) (code : List Instr) :
    run ([.simple .pushRoot [], .simple .cToS []] ++ code) ⟨rest, root, limits, n⟩ =
      run code ⟨.slice (.ofCell root) :: rest, root, limits, n + 1 + 1⟩ := by
  rw [List.cons_append, runConsOk (by rw [step]; rfl), List.cons_append, runConsOk (by rw [step]; rfl)]
  rfl

variable {target : Target} {u : SourceUnit} {c : Contract} {program : Program}

theorem stateReturns (refs : 2 ≤ target.cellRefs) (lowered : lower target u c = .ok program) :
    StateReturns target u c program := by
  obtain ⟨functions, load, store, structs, -, loadOk, storeOk, -, parts⟩ := lowerParts lowered
  refine ⟨load, store, by simp [parts], by simp [parts], loadOk, storeOk, fun vs typed few bits => ?_⟩
  obtain ⟨p, marks, made, storeCode, begun, assembles⟩ := Lower.storeStateAssembles storeOk
  have counted := countedFrom begun (by rwa [Int.zero_add]) few
  obtain ⟨q, marks', taken, loadCode, begun', apart⟩ := Lower.loadStateDisassembles loadOk
  cases Except.ok.inj (begun.symm.trans begun')
  obtain rfl := fragmentMarks ⟨rfl, rfl, rfl, rfl⟩ assembles apart
  refine ⟨(tape (marks.zip (wiresAll ((u.stateMembers c).map Prod.snd) vs)) .empty).finish, Value.rereadAll vs,
    Value.rereadAllSame vs, fun rest => ⟨fun old n => ?_, fun n => ?_⟩⟩
  · obtain ⟨k, ran⟩ := (assembles.settles refs counted vs rest typed).leads (fewWithin assembles few) old n
    exact ⟨k + 1, by rw [storeCode, runAppend, bindOfOk ran, runPopRoot]⟩
  · rw [loadCode, runPushRoot]
    exact apart.leads vs _ rest typed rfl _ (n + 1 + 1)

theorem headBits (f : Function) (w : Builder) : (Lower.answerHead f ++ w).finish.bits.take 32 =
    Builder.wordBits (BitVec.ofInt 256 (f.id ||| answerBit).toNat) 32 := by
  change ((Lower.answerHead f).bits ++ w.bits).take 32 = _
  have size : (Lower.answerHead f).bits.length = 32 := by simp [Lower.answerHead, Builder.ofBits, Lower.functionIdBits]
  rw [← size, List.take_left]
  rfl

theorem answersReturn (refs : 2 ≤ target.cellRefs) (lowered : lower target u c = .ok program) :
    AnswersReturn target c program := by
  intro f fIn g gIn fPublic ordinary gPublic same
  obtain ⟨functions, load, store, structs, emitted, -, -, -, parts⟩ := lowerParts lowered
  obtain ⟨encode, encodeIn, encoded⟩ := (Lower.functionsEmit emitted fIn fPublic).2 ordinary
  obtain ⟨decode, decodeIn, decoded⟩ := (Lower.functionsEmit emitted gIn gPublic).1
  refine ⟨encode, decode, by simp [parts, encodeIn], by simp [parts, decodeIn], encoded, decoded, ?_⟩
  obtain ⟨code, encodeCode, made⟩ := okOfBind encoded
  obtain ⟨code', decodeCode, taken⟩ := okOfBind decoded
  cases made
  cases taken
  obtain ⟨p, marks, begun, assembles⟩ := Lower.encodeAssembles encodeCode
  obtain ⟨q, marks', inner, rfl, begun', apart⟩ := Lower.decodeDisassembles decodeCode
  obtain ⟨-, -, capacity, bits, links, sizes⟩ := Position.startOk begun
  obtain ⟨-, -, capacity', bits', links', sizes'⟩ := Position.startOk begun'
  have alike : p.Alike q := by
    refine ⟨by rw [capacity, capacity'], by rw [bits, bits'], by rw [links, links'], ?_⟩
    rw [sizes, sizes', ← (bareSizes target).2, ← same, (bareSizes target).2]
  obtain rfl := fragmentMarks alike assembles apart
  intro vs typed few counted
  replace counted := countedFrom begun counted few
  have typed' : HaveTypes target (Lower.types g.params) vs := by
    rw [← (bareTypes target).2, same, (bareTypes target).2]
    exact typed
  have wires : wiresAll (Lower.types g.params) vs = wiresAll (Lower.types f.returns) vs := by
    rw [← (bareWires target).2 _ _ typed', same, (bareWires target).2 _ _ typed]
  refine ⟨_, Value.rereadAll vs, ?_, ?_, Value.rereadAllSame vs, fun rest =>
    ⟨(assembles.settles refs counted vs rest typed).leads (fewWithin assembles few), ?_⟩⟩
  · simp [headBits]
  · rw [headBits, Slice.readWord (by decide), Lower.answerWord]
    exact Nat.mod_eq_of_lt (f.id ||| answerBit).toNat_lt
  · have front (w : Builder) : (Slice.ofCell (Lower.answerHead f ++ w).finish).unread =
        .ofBits (Lower.answerHead f).bits ++ w := rfl
    obtain ⟨s, after, skipped⟩ := Lower.skipLeads (Lower.headSize f) (front _) target.cell rest
    exact skipped.append (apart.leads vs s rest typed' (by rw [after, wires]))

theorem tupleReturns {types : List Ty} {p : Position} {marks marks' : List Bool} {made taken : List Instr}
    {vs : List Value}
    (refs : 2 ≤ target.cellRefs) (assembles : Assembles target types p marks (fun vs => [.tuple vs]) .builder made)
    (apart : Disassembles target types p marks' (fun vs => [.tuple vs]) taken) (typed : HaveTypes target types vs)
    (few : Ty.slotsAll types ≤ 254) (counted : Ty.Counted target p.bits types) (rest : List Value) :
    Leads target.cell (made ++ [.simple .endC [], .simple .cToS []] ++ taken) (.tuple vs :: rest)
      (.tuple (Value.rereadAll vs) :: rest) := by
  obtain rfl := fragmentMarks ⟨rfl, rfl, rfl, rfl⟩ assembles apart
  have stored := (assembles.settles refs counted vs rest typed).leads (fewWithin assembles few)
  have ended : Leads target.cell [.simple .endC [], .simple .cToS []]
      (.builder (tape (marks.zip (wiresAll types vs)) .empty) :: rest)
      (.slice (.ofCell (tape (marks.zip (wiresAll types vs)) .empty).finish) :: rest) :=
    .cons (.cell (tape (marks.zip (wiresAll types vs)) .empty).finish :: rest) (fun _ _ => rfl) (.one fun _ _ => rfl)
  exact (stored.append ended).append (apart.leads vs _ rest typed rfl)

theorem structsReturn (refs : 2 ≤ target.cellRefs) (lowered : lower target u c = .ok program) :
    StructsReturn target u c program := by
  intro name names types used encodable
  obtain ⟨functions, load, store, structs, -, -, -, emitted, parts⟩ := lowerParts lowered
  obtain ⟨own, helpers, inside⟩ := Lower.structsEmit emitted used encodable
  obtain ⟨default, toBuilder, ofSlice, -, toCode, ofCode, rfl⟩ := Lower.helpersOk helpers
  refine ⟨_, _, _, ?_, ?_, helpers, fun vs typed few bits => ?_⟩
  · simp [parts, inside]
  · simp [parts, inside]
  obtain ⟨p, marks, begun, assembles⟩ := Lower.codeOfWrites (Record.toBuilderAssembles _) toCode
  obtain ⟨q, marks', begun', apart⟩ := Lower.codeOfWrites (Record.ofSliceDisassembles _) ofCode
  cases Except.ok.inj (begun.symm.trans begun')
  have counted := countedFrom begun (by rwa [Int.zero_add]) few
  exact ⟨Value.rereadAll vs, Value.rereadAllSame vs, tupleReturns refs assembles apart typed few counted⟩

theorem loweredValuesReturn {settings : Settings} (valid : settings.validate = .ok ())
    (lowered : lower settings.vm u c = .ok program) :
    StateReturns settings.vm u c program ∧ AnswersReturn settings.vm c program ∧
      StructsReturn settings.vm u c program :=
  have refs := Settings.validRefs valid
  ⟨stateReturns refs lowered, answersReturn refs lowered, structsReturn refs lowered⟩

def entryType : Ty := .struct "Entry" ["amount", "to"] [.uint 128, .address]

def ledger : Contract :=
  let here : Place := ⟨"", 1, 1⟩
  let entry : Variable := ⟨"entry", entryType, here⟩
  ⟨"Ledger", [entryType], [entry],
    [⟨"last", .function, [], [entry], .publ, .view, false, 7, [], here⟩,
     ⟨"record", .function, [entry], [], .publ, .nonpayable, false, 8, [], here⟩], [], here⟩

def ledgerUnit : SourceUnit := ⟨[], [ledger], ⟨"", 1, 1⟩⟩

theorem ledgerLowers : (lower (Settings.vm {}) ledgerUnit ledger).toOption.isSome = true := by
  decide +kernel

theorem ledgerValuesReturn : Settings.validate {} = .ok () ∧
    ∃ program, lower (Settings.vm {}) ledgerUnit ledger = .ok program ∧
      StateReturns (Settings.vm {}) ledgerUnit ledger program ∧ AnswersReturn (Settings.vm {}) ledger program ∧
      StructsReturn (Settings.vm {}) ledgerUnit ledger program := by
  have valid : Settings.validate {} = .ok () := rfl
  obtain ⟨program, found⟩ := Option.isSome_iff_exists.1 ledgerLowers
  exact ⟨valid, program, okOfOption found, loweredValuesReturn valid (okOfOption found)⟩

end CellChain
