import Mathlib
import CellChain.Proofs.SliceAcceptance
import CellChain.Proofs.WireLayout
/-! Reading a struct and writing it again. What the fragments of a program make of a slice of any content, when they
accept it, is the slice trimmed to what was read. -/
namespace CellChain

open Machine Emit

variable {target : Target}

theorem Position.placedLayout {p q : Position} {marks : List Bool} (placed : p.Placed marks q)
    (done : q.done = true) : ∃ entries, place p.leaves p = .ok entries ∧
      ((∀ e ∈ entries, e.cell = p.cells - 1) → ∀ opened ∈ marks, opened = false) := by
  induction placed with
  | nil p =>
    have none : p.leaves = [] := by simpa [Position.done] using done
    refine ⟨[], by rw [none]; rfl, fun _ opened inside => ?_⟩
    cases inside
  | @cons p q r opened marks first later ih =>
    cases listed : p.leaves with
    | nil =>
      unfold next at first
      simp [listed] at first
    | cons leaf rest =>
      obtain ⟨entries, ok, single⟩ := ih done
      rw [nextLeaves listed first] at ok
      refine ⟨⟨leaf.path, leaf.type, q.cells - 1, intSum q.bits (-leaf.bits), leaf.bits, leaf.refs⟩ :: entries, ?_, ?_⟩
      · simp only [place, first, bind, Except.bind, ok]
      intro within
      have own : q.cells - 1 = p.cells - 1 := within _ List.mem_cons_self
      have cells := nextCells first
      have stays : opened = false := by
        cases opened with
        | false => rfl
        | true =>
          simp only [Bool.toInt_true] at cells
          omega
      intro mark inside
      cases inside with
      | head => exact stays
      | tail _ behind =>
        refine single (fun e among => ?_) mark behind
        rw [within e (List.mem_cons_of_mem _ among), own]

theorem Position.startLayout {names : List String} {types : List Ty} {p q : Position}
    (begun : start target 0 names types target.cell = .ok p) {marks : List Bool} (placed : p.Placed marks q)
    (done : q.done = true) :
    ∃ entries, layout target 0 names types = .ok entries ∧
      ((∀ e ∈ entries, e.cell = 0) → ∀ opened ∈ marks, opened = false) := by
  obtain ⟨entries, ok, single⟩ := placedLayout placed done
  obtain ⟨first, -⟩ := startLeaves begun
  rw [first] at single
  refine ⟨entries, ?_, single⟩
  rw [layout, begun]
  exact ok

/- Whatever slice the code completes on, it leaves a tuple of values that are written as what was read. -/
structure Recovers (target : Target) (types : List Ty) (p : Position) (marks : List Bool) (code : List Instr) :
    Prop where
  placed : ∃ q, p.Placed marks q ∧ q.done = true
  completing : ∀ (s : Slice) (rest : List Value), Completing target.cell code (.slice s :: rest) fun links after =>
    ∃ vs, after = .tuple vs :: rest ∧ HaveTypes target types vs ∧
      tape (marks.zip (wiresAll types vs)) .empty = s.trimmed links ∧
      ((∀ opened ∈ marks, opened = false) → links = [])

theorem Recovers.ofTaken {types : List Ty} {p q : Position} {marks : List Bool} {a b : List Instr}
    (taken : Load.Takes target target.cell types marks p q a) (done : q.done = true)
    (packs : ∀ items rest : List Value, items.length = types.length →
      Leads target.cell b (items.reverse ++ rest) (.tuple items :: rest)) (quiet : Quiet b) :
    Recovers target types p marks (a ++ .simple .endS [] :: b) := by
  refine ⟨⟨q, taken.placed, done⟩, fun s rest => ?_⟩
  apply (taken.takes s rest).append
  intro links after read
  obtain ⟨vs, s', rfl, typed, unwound⟩ := read
  apply Completing.append (a := [.simple .endS []])
    (P := fun more after => more = [] ∧ s'.unread = .empty ∧ after = vs.reverse ++ rest)
  · exact .endSlice fun ended => ⟨rfl, ended, rfl⟩
  · intro more after finished
    obtain ⟨rfl, ended, rfl⟩ := finished
    refine .ofLeads quiet (packs vs rest typed.length) ⟨vs, rfl, typed, ?_⟩
    rw [List.nil_append, List.append_nil]
    refine ⟨unwound.trims ended, fun closed => unwound.linkless fun piece inside => ?_⟩
    exact closed _ (List.of_mem_zip inside).1

theorem Record.ofSliceRecovers (r : Record) (widths : Ty.WidthsOkAll r.types) :
    Writes target r.ofSlice fun _ _ code _ => ∃ p marks,
      Position.start target 0 r.names r.types target.cell = .ok p ∧ Recovers target r.types p marks code := by
  refine .bind (Q := fun _ _ code _ => code = []) (.depth fun _ => rfl) fun _ _ _ _ silent => ?_
  refine .bind (Q := fun _ t code _ => target = t ∧ code = []) (.readTarget fun _ => ⟨rfl, rfl⟩) ?_
  intro _ _ _ _ read
  obtain ⟨rfl, still⟩ := read
  refine .bind (Q := fun _ p code _ => Position.start target 0 r.names r.types target.cell = .ok p ∧ code = [])
    (.lift fun p ok _ => ⟨ok, rfl⟩) fun _ p _ _ begun => ?_
  refine .bind (loadValuesTake widths target.cell p) fun _ _ a _ loaded => ?_
  obtain ⟨marks, q, done, taken⟩ := loaded
  refine .opThen (.bind ((tupleLeads target.cell r.types.length).and (Load.tupleQuiet r.types.length)) ?_)
  intro _ _ b _ packed
  refine .ensureDepth fun _ _ _ _ _ _ => ⟨p, marks, begun.1, ?_⟩
  rw [silent, still, begun.2, List.append_nil]
  exact .ofTaken taken done packed.1.2.2 packed.2

/- A struct that is read from a slice of any content is well typed, and it is written as the slice trimmed to what was
read. Where its layout has one cell, that is all that the slice had to read. -/
def SlicesReturn (target : Target) (u : SourceUnit) (c : Contract) (program : Program) : Prop :=
  ∀ name names types, .struct name names types ∈ Lower.usedStructs u c → Lower.Encodable name names types →
    Ty.WidthsOkAll types → Ty.slotsAll types ≤ 254 → Ty.bitsAll target types ≤ Text.largestInt →
    ∃ default toBuilder ofSlice, toBuilder ∈ program.fragments ∧ ofSlice ∈ program.fragments ∧
      Lower.helpers target name names types = .ok [default, toBuilder, ofSlice] ∧
      ∀ s rest root n m, run ofSlice.code ⟨.slice s :: rest, root, target.cell, n⟩ = .ok () m →
        ∃ vs n', m = ⟨.tuple vs :: rest, root, target.cell, n'⟩ ∧ HaveTypes target types vs ∧
          ∃ b, (∀ others, Leads target.cell toBuilder.code (.tuple vs :: others) (.builder b :: others)) ∧
            b.finish = (s.trimmed (follows ofSlice.code ⟨.slice s :: rest, root, target.cell, n⟩)).finish ∧
            ∃ entries, layout target 0 names types = .ok entries ∧ ((∀ e ∈ entries, e.cell = 0) → b.finish = s.rest)

theorem slicesReturn {u : SourceUnit} {c : Contract} {program : Program} (refs : 2 ≤ target.cellRefs)
    (lowered : lower target u c = .ok program) : SlicesReturn target u c program := by
  intro name names types used encodable widths few bits
  obtain ⟨functions, load, store, structs, -, -, -, emitted, parts⟩ := lowerParts lowered
  obtain ⟨own, helpers, inside⟩ := Lower.structsEmit emitted used encodable
  obtain ⟨default, toBuilder, ofSlice, -, toCode, ofCode, rfl⟩ := Lower.helpersOk helpers
  refine ⟨_, _, _, ?_, ?_, helpers, fun s rest root n m done => ?_⟩
  · simp [parts, inside]
  · simp [parts, inside]
  obtain ⟨p, marks, begun, assembles⟩ := Lower.codeOfWrites (Record.toBuilderAssembles _) toCode
  obtain ⟨q, marks', begun', recovers⟩ := Lower.codeOfWrites (Record.ofSliceRecovers _ widths) ofCode
  cases Except.ok.inj (begun.symm.trans begun')
  obtain ⟨p', placed, all⟩ := assembles.placed
  obtain ⟨q', placed', all'⟩ := recovers.placed
  obtain rfl := Position.placedAlike ⟨rfl, rfl, rfl, rfl⟩ placed all placed' all'
  obtain ⟨after, n', rfl, vs, rfl, typed, trims, linkless⟩ := recovers.completing s rest root n m done
  obtain ⟨entries, laid, single⟩ := Position.startLayout begun placed all
  refine ⟨vs, n', rfl, typed, _, fun others => ?_, congrArg Builder.finish trims, entries, laid, fun one => ?_⟩
  · exact (assembles.settles refs (countedFrom begun (by rwa [Int.zero_add]) few) vs others typed).leads
      (fewWithin assembles few)
  · rw [trims, linkless (single one)]
    rfl

theorem acceptedSlicesReturn {settings : Settings} {u : SourceUnit} {c : Contract} {program : Program}
    (valid : settings.validate = .ok ()) (lowered : lower settings.vm u c = .ok program) :
    SlicesReturn settings.vm u c program :=
  slicesReturn (Settings.validRefs valid) lowered

def narrow : Settings :=
  { vm := { cellBits := 256, addressBits := 256, dictValueBits := 256 } }

def pairTypes : List Ty := [.uint 250, .uint 8]

def pairType : Ty := .struct "Pair" ["high", "low"] pairTypes

def pairs : Contract :=
  let here : Place := ⟨"", 1, 1⟩
  ⟨"Pairs", [pairType], [⟨"pair", pairType, here⟩], [], [], here⟩

def pairUnit : SourceUnit := ⟨[], [pairs], ⟨"", 1, 1⟩⟩

def pairCell (bits : List Bool) (refs : List Cell) : Cell :=
  .mk (List.replicate 250 true ++ bits) (.mk (List.replicate 8 true) [] :: refs)

def pairSlice : Slice := .ofCell (pairCell [false, true] [.empty])

def pairReading : List Instr :=
  [.simple .ldU [250], .simple .ldRefRToS [], .simple .nip [], .simple .ldU [8], .simple .endS [], .simple .tuple [2]]

theorem pairLowers : (lower narrow.vm pairUnit pairs).toOption.isSome = true := by
  decide +kernel

theorem pairHelpers : ∃ a b, Lower.helpers narrow.vm "Pair" ["high", "low"] pairTypes =
    .ok [a, b, ⟨"Pair_from_slice", .structOfSlice, 0, 1, 1, pairReading⟩] :=
  ⟨_, _, rfl⟩

theorem pairUsed : pairType ∈ Lower.usedStructs pairUnit pairs := by
  have all : Lower.usedStructs pairUnit pairs = [pairType] := rfl
  rw [all]
  exact List.mem_singleton_self pairType

set_option maxRecDepth 4000 in
theorem pairRuns : ∃ m, run pairReading ⟨[.slice pairSlice], .empty, narrow.vm.cell, 0⟩ = .ok () m ∧
    (pairSlice.trimmed (follows pairReading ⟨[.slice pairSlice], .empty, narrow.vm.cell, 0⟩)).finish =
      pairCell [] [] :=
  ⟨_, rfl, rfl⟩

theorem pairSliceReturns : narrow.validate = .ok () ∧
    ∃ program, lower narrow.vm pairUnit pairs = .ok program ∧
      ∃ toBuilder ∈ program.fragments, ∃ ofSlice ∈ program.fragments, ∃ vs n b,
        run ofSlice.code ⟨[.slice pairSlice], .empty, narrow.vm.cell, 0⟩ =
          .ok () ⟨[.tuple vs], .empty, narrow.vm.cell, n⟩ ∧
        HaveTypes narrow.vm pairTypes vs ∧
        Leads narrow.vm.cell toBuilder.code [.tuple vs] [.builder b] ∧ b.finish = pairCell [] [] := by
  have valid : narrow.validate = .ok () := rfl
  obtain ⟨program, found⟩ := Option.isSome_iff_exists.1 pairLowers
  refine ⟨valid, program, okOfOption found, ?_⟩
  have returns := acceptedSlicesReturn valid (okOfOption found)
  have widths : Ty.WidthsOkAll pairTypes := by
    simp only [pairTypes, Ty.uint, Ty.WidthsOkAll, Ty.WidthsOk, Ty.WidthOk]
    decide
  obtain ⟨_, toBuilder, ofSlice, made, read, helpers, slices⟩ :=
    returns _ _ pairTypes pairUsed rfl widths (by decide) (by decide)
  obtain ⟨a, b, emitted⟩ := pairHelpers
  cases Except.ok.inj (emitted.symm.trans helpers)
  obtain ⟨m, ran, trims⟩ := pairRuns
  obtain ⟨vs, n, rfl, typed, w, leads, same, -⟩ := slices _ _ _ _ _ ran
  exact ⟨_, made, _, read, vs, n, w, ran, typed, leads [], same.trans trims⟩

end CellChain
