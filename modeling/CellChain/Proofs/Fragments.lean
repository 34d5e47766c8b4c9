import Mathlib
import CellChain.Proofs.ChainRoundTrip
import CellChain.Proofs.Groups
import CellChain.Proofs.Lowered
/-! What the fragments of a program do with values of the types they are emitted for. Each puts the values into
the order that the codec takes them in, or takes a chain apart, and adds what stands before and after it. -/
namespace CellChain

open Machine Emit

variable {target : Target}

namespace Lower

theorem codeOfWrites {x : Emit Unit} {depth : Int} {code : List Instr} {P : List Instr → Prop}
    (h : Writes target x fun _ _ code _ => P code) (ok : codeOf target depth x = .ok code) : P code := by
  obtain ⟨⟨_, e⟩, emitted, finished⟩ := okOfBind ok
  obtain ⟨written, d, rfl, holds⟩ := h _ _ _ rfl emitted
  have same : written = code := by
    simpa [Emitter.code, Emitter.write, Emitter.start, require, bind, Except.bind] using finished
  exact same ▸ holds

end Lower

/- Code that makes one value of a chain with values of `types`. A cell must have room for a link beside another
reference. -/
structure Assembles (target : Target) (types : List Ty) (p : Position) (marks : List Bool)
    (input : List Value → List Value) (output : Builder → Value) (code : List Instr) : Prop where
  placed : ∃ q, p.Placed marks q ∧ q.done = true
  within : (Ty.slotsAll types : Int) + 1 ≤ operandLimit → Within code
  settles : 2 ≤ target.cellRefs → Ty.Counted target p.bits types → ∀ (vs rest : List Value), HaveTypes target types vs →
    Settles target.cell code (input vs ++ rest) (output (tape (marks.zip (wiresAll types vs)) .empty) :: rest)

theorem freshLeads (limits : Capacity) (s : List Value) :
    Leads limits [.simple .newC []] s (.builder .empty :: s) :=
  .one fun _ _ => rfl

namespace Assembles

variable {types : List Ty} {p : Position} {marks : List Bool} {input : List Value → List Value}
  {output : Builder → Value} {code : List Instr}

theorem ofStored {offset : Int} {names : List String} {a : List Instr} (head : Builder)
    (begun : Position.start target offset names types target.cell = .ok p)
    (stored : Stored target target.cell types p marks code) (size : (head.bits.length : Int) = offset)
    (bare : head.refs = []) (small : Within a)
    (opened : 2 ≤ target.cellRefs → ∀ s, Leads target.cell a s (.builder head :: s)) :
    Assembles target types p marks id (fun w => .builder (head ++ w)) (a ++ code) := by
  refine ⟨stored.placed, fun few => withinAppend.2 ⟨small, stored.within few⟩, fun refs counted vs rest typed => ?_⟩
  refine (Settles.ofLeads small (opened refs (vs ++ rest))).append ?_
  rw [(Position.startOk begun).2.2.2.1] at counted
  exact stored.settles vs head rest typed (startHolds begun refs counted typed size bare)

theorem ended {head : Builder} (h : Assembles target types p marks input (fun w => .builder (head ++ w)) code) :
    Assembles target types p marks input (fun w => .cell (head ++ w).finish) (code ++ [.simple .endC []]) := by
  refine ⟨h.placed, fun few => withinAppend.2 ⟨h.within few, withinCarried rfl _⟩, fun refs counted vs rest typed => ?_⟩
  exact (h.settles refs counted vs rest typed).append (.one rfl fun _ _ => rfl)

theorem arranged {a : List Instr} (h : Assembles target types p marks id output code)
    (turned : ((types.length : Int) ≤ operandLimit → Within a) ∧ ∀ top rest : List Value, top.length = types.length →
      Settles target.cell a (top ++ rest) (top.reverse ++ rest)) :
    Assembles target types p marks List.reverse output (a ++ code) := by
  have few := Ty.lengthLeSlots types
  refine ⟨h.placed, fun small => withinAppend.2 ⟨turned.1 (by omega), h.within small⟩,
    fun refs counted vs rest typed => ?_⟩
  have reversed := turned.2 vs.reverse rest (by rw [List.length_reverse, typed.length])
  rw [List.reverse_reverse] at reversed
  exact reversed.append (h.settles refs counted vs rest typed)

theorem untupled {a : List Instr} (h : Assembles target types p marks List.reverse output code)
    (spread : Within a ∧ ∀ items rest : List Value, items.length = types.length →
      Leads target.cell a (.tuple items :: rest) (items.reverse ++ rest)) :
    Assembles target types p marks (fun vs => [.tuple vs]) output (a ++ code) := by
  refine ⟨h.placed, fun small => withinAppend.2 ⟨spread.1, h.within small⟩, fun refs counted vs rest typed => ?_⟩
  exact (Settles.ofLeads spread.1 (spread.2 vs rest typed.length)).append (h.settles refs counted vs rest typed)

theorem called {arguments results : Int} (h : Assembles target types p marks input output code) :
    Assembles target types p marks input output [.callRef arguments results code] := by
  refine ⟨h.placed, fun small => ?_, fun refs counted vs rest typed => (h.settles refs counted vs rest typed).callRef⟩
  simpa [Within, operandsOf, Instr.overStack] using h.within small

end Assembles

namespace Lower

def storeFrom (target : Target) (offset : Int) (names : List String) (types : List Ty) : Emit Position := do
  let p ← lift (Position.start target offset names types target.cell)
  storeValues types p

theorem storesFrom (offset : Int) (names : List String) (types : List Ty) :
    Writes target (storeFrom target offset names types) fun _ _ code _ => ∃ p marks,
      Position.start target offset names types target.cell = .ok p ∧
      Stored target target.cell types p marks code := by
  refine .bind (Q := fun _ p code _ => Position.start target offset names types target.cell = .ok p ∧ code = [])
    (.lift fun p ok _ => ⟨ok, rfl⟩) ?_
  rintro _ p _ _ ⟨begun, rfl⟩
  obtain ⟨-, -, -, -, -, listed⟩ := Position.startOk begun
  refine (storeValuesStored target.cell listed).mono ?_
  rintro _ _ code _ ⟨marks, stored⟩ _
  exact ⟨p, marks, begun, stored⟩

def answerBody (target : Target) (f : Function) : Emit Unit := do
  newBuilder
  pushSmall (f.id ||| answerBit).toNat
  swap
  op .stU [functionIdBits]
  let _ ← storeFrom target functionIdBits (names f.returns) (types f.returns)
  endBuilder
  ensureDepth 1 (f.name ++ " encode")

theorem encodeArranged (f : Function) : encodeCode target f = codeOf target f.returns.length (do
    arrange f.returns.length
    answerBody target f) := by
  unfold encodeCode answerBody storeFrom arrange
  congr 1
  split <;> simp

def answerHead (f : Function) : Builder :=
  .ofBits (Builder.wordBits (BitVec.ofInt 256 (f.id ||| answerBit).toNat) functionIdBits.toNat)

theorem headSize (f : Function) : ((answerHead f).bits.length : Int) = functionIdBits := by
  simp [answerHead, Builder.ofBits, functionIdBits]

theorem answerWord (f : Function) :
    (BitVec.ofInt 256 (f.id ||| answerBit).toNat).toNat = (f.id ||| answerBit).toNat := by
  have small := (f.id ||| answerBit).toNat_lt
  rw [smallWord (by omega) (by omega), Int.toNat_natCast]

def headCode (f : Function) : List Instr :=
  [.simple .newC [], .pushInt (BitVec.ofInt 256 (f.id ||| answerBit).toNat), .simple .swap [],
    .simple .stU [functionIdBits]]

theorem headLeads (f : Function) (room : 32 ≤ target.cellBits) (refs : 2 ≤ target.cellRefs) (s : List Value) :
    Leads target.cell (headCode f) s (.builder (answerHead f) :: s) := by
  refine .cons (.builder .empty :: s) (fun _ _ => rfl) ?_
  refine (Leads.push _).append ?_
  refine .cons (.builder .empty :: .int _ :: s) (fun _ _ => rfl) ?_
  have fits : fitsUnsigned (BitVec.ofInt 256 (f.id ||| answerBit).toNat) functionIdBits :=
    (fitsUnsignedIff _ _).2 (.inr ⟨by decide, by rw [answerWord]; exact (f.id ||| answerBit).toNat_lt⟩)
  have inside : withinLimits target.cell (.empty ++ answerHead f) := by
    refine ⟨.inr ?_, ?_⟩
    · simpa [answerHead, Builder.ofBits, functionIdBits, Target.cell] using room
    · simp only [Builder.emptyAppend, answerHead, Builder.ofBits, List.length_nil]
      change 0 ≤ target.cellRefs
      omega
  exact .one fun _ _ => storeIntOk fits (by decide) inside

theorem encodeAssembles {f : Function} {code : List Instr} (ok : encodeCode target f = .ok code) : ∃ p marks,
      Position.start target functionIdBits (names f.returns) (types f.returns) target.cell = .ok p ∧
      Assembles target (types f.returns) p marks List.reverse (fun w => .cell (answerHead f ++ w).finish) code := by
  rw [encodeArranged] at ok
  apply codeOfWrites ?_ ok
  refine .bind (arrangeSettles target.cell f.returns.length) fun _ _ a _ turned => ?_
  refine .opThen (.bind (.pushSmall _) ?_)
  rintro _ _ _ _ ⟨rfl, -⟩
  refine .opThen (.opThen (.bind (storesFrom _ _ _) ?_))
  rintro _ _ code _ ⟨p, marks, begun, stored⟩
  refine .opThen ((Writes.ensureDepth (Q := fun _ _ code _ => code = []) rfl).mono ?_)
  rintro _ _ _ _ rfl _ _ _ _ _ _ _
  obtain ⟨-, room, -⟩ := Position.startOk begun
  have small : Within (headCode f) := by
    simp [headCode, Within, operandsOf, Instr.overStack, Opcode.stackOperands]
  have size : (types f.returns).length = f.returns.length := by simp [types]
  have chained := Assembles.ofStored (answerHead f) begun stored (headSize f) rfl small (headLeads f room)
  have whole := chained.ended.arranged (by rw [size]; exact turned)
  rw [List.append_assoc] at whole
  exact ⟨p, marks, begun, whole⟩

def stateBody (target : Target) (names : List String) (types : List Ty) : Emit Unit := do
  newBuilder
  let _ ← storeFrom target 0 names types
  endBuilder
  popRoot
  ensureDepth 0 "c7_to_c4"

theorem storeStateArranged (members : List (String × Ty)) : storeState target members = (do
    let code ← codeOf target (members.map Prod.snd).length (do
      arrange (members.map Prod.snd).length
      stateBody target (members.map Prod.fst) (members.map Prod.snd))
    .ok ⟨"c7_to_c4", .storeState, 0, (members.map Prod.snd).length, 0, code⟩) := by
  have opened (names : List String) (types : List Ty) : (do
      if 2 ≤ types.length then reverse types.length 0
      newBuilder
      let _ ← storeValues types (← lift (Position.start target 0 names types target.cell))
      endBuilder
      popRoot
      ensureDepth 0 "c7_to_c4" : Emit Unit) = (do
      arrange types.length
      stateBody target names types) := by
    unfold stateBody storeFrom arrange
    split <;> simp
  unfold storeState
  simp only [List.unzip_eq_map]
  rw [opened]

theorem storeStateAssembles {members : List (String × Ty)} {frag : Fragment}
    (ok : storeState target members = .ok frag) : ∃ p marks code, frag.code = code ++ [.simple .popRoot []] ∧
      Position.start target 0 (members.map Prod.fst) (members.map Prod.snd) target.cell = .ok p ∧
      Assembles target (members.map Prod.snd) p marks List.reverse (fun w => .cell w.finish) code := by
  rw [storeStateArranged] at ok
  obtain ⟨code, emitted, made⟩ := okOfBind ok
  cases made
  generalize members.map Prod.fst = names, members.map Prod.snd = types at *
  change ∃ p marks inner, code = inner ++ _ ∧ _
  apply codeOfWrites ?_ emitted
  refine .bind (arrangeSettles target.cell types.length) fun _ _ a _ turned => ?_
  refine .opThen (.bind (storesFrom _ _ _) ?_)
  rintro _ _ code _ ⟨p, marks, begun, stored⟩
  refine .opThen (.opThen ((Writes.ensureDepth (Q := fun _ _ code _ => code = []) rfl).mono ?_))
  rintro _ _ _ _ rfl _ _ _ _ _
  have chained := Assembles.ofStored .empty begun stored rfl rfl (withinCarried rfl _) fun _ => freshLeads _
  refine ⟨p, marks, a ++ ([.simple .newC []] ++ code ++ [.simple .endC []]), by simp, begun, ?_⟩
  exact chained.ended.arranged turned

end Lower

namespace Record

theorem conversionAssembles (r : Record) : Writes target (r.conversion target) fun _ _ code _ =>
    ∃ p marks, Position.start target 0 r.names r.types target.cell = .ok p ∧
      Assembles target r.types p marks (fun vs => [.tuple vs]) .builder code := by
  refine .bind (untupleLeads target.cell r.types.length) fun _ _ a _ spread => ?_
  refine .bind (arrangeSettles target.cell r.types.length) fun _ _ b _ turned => ?_
  refine .opThen ((Lower.storesFrom 0 r.names r.types).mono ?_)
  rintro _ _ code _ ⟨p, marks, begun, stored⟩ _ _ _
  have chained := Assembles.ofStored .empty begun stored rfl rfl (withinCarried rfl _) fun _ => freshLeads _
  exact ⟨p, marks, begun, (chained.arranged turned).untupled spread⟩

theorem toBuilderAssembles (r : Record) : Writes target r.toBuilder fun _ _ code _ =>
    ∃ p marks, Position.start target 0 r.names r.types target.cell = .ok p ∧
      Assembles target r.types p marks (fun vs => [.tuple vs]) .builder code := by
  rw [toBuilderConversion]
  refine .bind (Q := fun _ _ code _ => code = []) (.depth fun _ => rfl) ?_
  rintro _ _ _ _ rfl
  refine .bind (Q := fun _ t code _ => target = t ∧ code = []) (.readTarget fun _ => ⟨rfl, rfl⟩) ?_
  rintro _ _ _ _ ⟨rfl, rfl⟩
  refine .bind (Q := fun _ _ code _ => ∃ p marks,
    Position.start target 0 r.names r.types target.cell = .ok p ∧
      Assembles target r.types p marks (fun vs => [.tuple vs]) .builder code) ?_ ?_
  · refine .called r.conversionAssembles ?_
    rintro _ _ code _ - ⟨p, marks, begun, assembles⟩
    exact ⟨p, marks, begun, assembles.called⟩
  · intro _ _ code _ h
    refine (Writes.ensureDepth (Q := fun _ _ code _ => code = []) rfl).mono ?_
    rintro _ _ _ _ rfl _ _ _
    simpa using h

end Record

structure Disassembles (target : Target) (types : List Ty) (p : Position) (marks : List Bool)
    (output : List Value → List Value) (code : List Instr) : Prop where
  placed : ∃ q, p.Placed marks q ∧ q.done = true
  leads : ∀ (vs : List Value) (s : Slice) (rest : List Value), HaveTypes target types vs →
    s.unread = tape (marks.zip (wiresAll types vs)) .empty →
      Leads target.cell code (.slice s :: rest) (output (Value.rereadAll vs) ++ rest)

namespace Disassembles

variable {types : List Ty} {p : Position} {marks : List Bool} {code : List Instr}

theorem ofLoaded (loaded : Loaded target target.cell types p marks code) :
    Disassembles target types p marks List.reverse (code ++ [.simple .endS []]) := by
  refine ⟨loaded.placed, fun vs s rest typed front => ?_⟩
  obtain ⟨s', none, leads⟩ := loaded.leads vs s rest typed front
  refine leads.append (.one fun root n => ?_)
  simp only [simple]
  rw [bindOfOk (popSliceOk ..), if_pos none]
  rfl

theorem tupled {a : List Instr} (h : Disassembles target types p marks List.reverse code)
    (packed : ∀ items rest : List Value, items.length = types.length →
      Leads target.cell a (items.reverse ++ rest) (.tuple items :: rest)) :
    Disassembles target types p marks (fun vs => [.tuple vs]) (code ++ a) := by
  refine ⟨h.placed, fun vs s rest typed front => (h.leads vs s rest typed front).append ?_⟩
  exact packed _ rest (by rw [Value.rereadAllLength, typed.length])

end Disassembles

namespace Lower

theorem loadsThen {offset : Int} {names : List String} {types : List Ty} {f : Emit Unit}
    {Q : Int → Unit → List Instr → Int → Prop}
    (h : ∀ p marks code, Position.start target offset names types target.cell = .ok p →
      Disassembles target types p marks List.reverse code →
        Writes target f fun _ u more d' => ∀ d, Q d u (code ++ more) d') :
    Writes target (do
      let p ← lift (Position.start target offset names types target.cell)
      let _ ← loadValues types p
      endSlice
      f) Q := by
  refine .bind (Q := fun _ p code _ => Position.start target offset names types target.cell = .ok p ∧ code = [])
    (.lift fun p ok _ => ⟨ok, rfl⟩) ?_
  rintro _ p _ _ ⟨begun, rfl⟩
  refine .bind (loadValuesLoaded target.cell types p) ?_
  rintro _ _ code _ ⟨marks, loaded⟩
  refine .opThen ((h p marks _ begun (.ofLoaded loaded)).mono fun _ _ more _ holds d _ _ => ?_)
  simpa using holds _

theorem skipLeads {s : Slice} {bits : List Bool} {w : Builder} (size : (bits.length : Int) = functionIdBits)
    (front : s.unread = .ofBits bits ++ w) (limits : Capacity) (rest : List Value) : ∃ s', s'.unread = w ∧
      Leads limits [.simple .ldU [functionIdBits], .simple .nip []] (.slice s :: rest) (.slice s' :: rest) := by
  obtain ⟨s', taken, after⟩ := readBitsUnread size front
  have found : readUnsigned functionIdBits s = some (.int (Slice.bitsValue bits), s') := by
    simp only [readUnsigned, taken, Option.map_some]
  refine ⟨s', after, .cons (.slice s' :: .int (Slice.bitsValue bits) :: rest) (fun _ _ => loadOk found) ?_⟩
  exact .one fun _ _ => rfl

theorem decodeDisassembles {f : Function} {code : List Instr} (ok : decodeCode target f = .ok code) :
    ∃ p marks inner, code = [.simple .ldU [functionIdBits], .simple .nip []] ++ inner ∧
      Position.start target functionIdBits (names f.params) (types f.params) target.cell = .ok p ∧
      Disassembles target (types f.params) p marks List.reverse inner := by
  apply codeOfWrites ?_ ok
  refine .opThen (.opThen (loadsThen fun p marks inner begun apart => .ensureDepth fun _ _ _ => ?_))
  rw [List.append_nil]
  exact ⟨p, marks, inner, rfl, begun, apart⟩

theorem loadStateDisassembles {members : List (String × Ty)} {frag : Fragment}
    (ok : loadState target members = .ok frag) : ∃ p marks inner,
      frag.code = [.simple .pushRoot [], .simple .cToS []] ++ inner ∧
      Position.start target 0 (members.map Prod.fst) (members.map Prod.snd) target.cell = .ok p ∧
      Disassembles target (members.map Prod.snd) p marks List.reverse inner := by
  unfold loadState at ok
  simp only [List.unzip_eq_map] at ok
  obtain ⟨code, emitted, made⟩ := okOfBind ok
  cases made
  generalize members.map Prod.fst = names, members.map Prod.snd = types at *
  change ∃ p marks inner, code = _ ∧ _
  apply codeOfWrites ?_ emitted
  refine .opThen (.opThen (loadsThen fun p marks inner begun apart => .ensureDepth fun _ _ _ => ?_))
  rw [List.append_nil]
  exact ⟨p, marks, inner, rfl, begun, apart⟩

end Lower

namespace Record

theorem ofSliceDisassembles (r : Record) : Writes target r.ofSlice fun _ _ code _ => ∃ p marks,
    Position.start target 0 r.names r.types target.cell = .ok p ∧
      Disassembles target r.types p marks (fun vs => [.tuple vs]) code := by
  refine .bind (Q := fun _ _ code _ => code = []) (.depth fun _ => rfl) ?_
  rintro _ _ _ _ rfl
  refine .bind (Q := fun _ t code _ => target = t ∧ code = []) (.readTarget fun _ => ⟨rfl, rfl⟩) ?_
  rintro _ _ _ _ ⟨rfl, rfl⟩
  refine Lower.loadsThen fun p marks code begun apart => ?_
  refine .bind (tupleLeads target.cell r.types.length) fun _ _ a _ packed => .ensureDepth fun _ _ _ _ => ?_
  rw [List.append_nil]
  exact ⟨p, marks, begun, apart.tupled packed.2.2⟩

end Record

end CellChain
