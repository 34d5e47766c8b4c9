import Mathlib
import CellChain.Proofs.Fragments
import CellChain.Proofs.Harmless
/-! What the operands in a program decide. The emitter bounds the sizes of tuples, but neither the count of a
reversal nor that of a block swap. A fragment none of whose operands is above 255 trips over none. With one that
is, it trips on all values that it is made for, so a contract with more than 252 state variables cannot keep
them. -/
namespace CellChain

open Machine Emit

variable {target : Target}

namespace Lower

variable {P : Int → List Instr → Int → Prop}

theorem answerObeys (law : WriteLaw target P) (f : Function) : Obeys target P (answerBody target f) :=
  law.bind (law.op rfl) fun _ => law.bind (law.pushInt _) fun _ => law.bind (law.op rfl) fun _ =>
    law.bind (law.op rfl) fun _ => law.bind (law.bind law.lift fun _ => law.storeValues _ _) fun _ =>
      law.bind (law.op rfl) fun _ => law.ensureDepth

theorem stateObeys (law : WriteLaw target P) (names : List String) (types : List Ty) :
    Obeys target P (stateBody target names types) :=
  law.bind (law.op rfl) fun _ => law.bind (law.bind law.lift fun _ => law.storeValues _ _) fun _ =>
    law.bind (law.op rfl) fun _ => law.bind (law.op rfl) fun _ => law.ensureDepth

theorem codeOfObeys {x : Emit Unit} {depth : Int} {code : List Instr} (h : Obeys target P x)
    (ok : codeOf target depth x = .ok code) : ∃ d d', P d code d' :=
  codeOfWrites (P := fun code => ∃ d d', P d code d') (Writes.mono h fun d _ _ d' obeyed => ⟨d, d', obeyed⟩) ok

theorem decodeObeys (law : ReadLaw target P) {f : Function} {code : List Instr} (ok : decodeCode target f = .ok code) :
    ∃ d d', P d code d' := by
  apply codeOfObeys ?_ ok
  exact law.bind (law.op rfl) fun _ => law.bind (law.op rfl) fun _ => law.bind law.lift fun _ =>
    law.bind (law.loadValues _ _) fun _ => law.bind (law.op rfl) fun _ => law.ensureDepth

theorem loadStateObeys (law : ReadLaw target P) {members : List (String × Ty)} {frag : Fragment}
    (ok : loadState target members = .ok frag) : ∃ d d', P d frag.code d' := by
  obtain ⟨code, emitted, made⟩ := okOfBind ok
  cases made
  apply codeOfObeys ?_ emitted
  exact law.bind (law.op rfl) fun _ => law.bind (law.op rfl) fun _ => law.bind law.lift fun _ =>
    law.bind (law.loadValues _ _) fun _ => law.bind (law.op rfl) fun _ => law.ensureDepth

theorem arrangeWide (n : Nat) : Writes target (arrange n) fun _ _ code _ => operandLimit < n → ¬Within code := by
  unfold arrange
  split
  · refine (reverseCode n 0).mono ?_
    rintro _ _ _ _ ⟨-, ⟨small, -, rfl⟩ | ⟨-, rfl⟩⟩ many
    · simp only [operandLimit] at many
      omega
    · intro fits
      have most := fits n (by rw [operandsPushed rfl]; exact List.mem_cons_self)
      omega
  · refine .pure fun _ many => ?_
    simp only [operandLimit] at many
    omega

theorem arrangedCode {n : Nat} {depth : Int} {body : Emit Unit} {code : List Instr}
    (harmless : Obeys target (fun _ code _ => Harmless False code) body)
    (ok : codeOf target depth (do arrange n; body) = .ok code) :
    Harmless False code ∧ (operandLimit < n → ¬Within code) := by
  have law := @harmlessWrites target
  constructor
  · exact codeOfWrites (law.bind (law.arrange n) fun _ => harmless) ok
  · apply codeOfWrites ?_ ok
    refine .bind (arrangeWide n) fun _ _ a _ wide => Writes.mono harmless fun _ _ b _ _ _ many fits => ?_
    exact wide many (withinAppend.1 fits).1

end Lower

structure OperandsDecide (target : Target) (frag : Fragment) (slots : Nat) (counted : Prop)
    (inputs : List Value → Prop) : Prop where
  arguments : ∀ input, inputs input → (input.length : Int) = frag.args
  within : slots ≤ 254 → Within frag.code
  wide : operandLimit < frag.args → ¬Within frag.code
  safe : Within frag.code → ∀ m h m', run frag.code m = .error h m' → h.isOperand = false
  trips : 2 ≤ target.cellRefs → WordSized frag.code → counted → ∀ input rest, inputs input →
    (Trips target.cell frag.code (input ++ rest) ↔ ¬Within frag.code)

theorem harmlessNeverTrips {few : Prop} {limits : Capacity} {code : List Instr} (h : Harmless few code)
    (small : Within code) (s : List Value) : ¬Trips limits code s := by
  intro bad
  obtain ⟨why, m, halted, operand⟩ := bad .empty 0
  rw [h.safe small _ _ _ halted] at operand
  cases operand

namespace OperandsDecide

variable {frag : Fragment} {slots : Nat} {counted : Prop} {inputs : List Value → Prop}

theorem ofHarmless (few : frag.args ≤ 1) (sized : ∀ input, inputs input → (input.length : Int) = frag.args)
    (h : Harmless True frag.code) : OperandsDecide target frag slots counted inputs := by
  have small := h.within trivial
  refine ⟨sized, fun _ => small, fun many => ?_, h.safe, fun _ _ _ input rest _ => ?_⟩
  · simp only [operandLimit] at many
    omega
  · exact ⟨fun bad => absurd bad (harmlessNeverTrips h small _), fun large => absurd small large⟩

theorem ofAssembles {types : List Ty} {p : Position} {marks : List Bool} {input : List Value → List Value}
    {output : Builder → Value} {code tail : List Instr} (made : Assembles target types p marks input output code)
    (shape : frag.code = code ++ tail) (none : operandsOf tail = [])
    (sized : ∀ vs, HaveTypes target types vs → ((input vs).length : Int) = frag.args)
    (wide : operandLimit < frag.args → ¬Within frag.code) (h : Harmless False frag.code) :
    OperandsDecide target frag (Ty.slotsAll types) (Ty.Counted target p.bits types) fun given =>
      ∃ vs, HaveTypes target types vs ∧ given = input vs := by
  have same : operandsOf frag.code = operandsOf code := by rw [shape, operandsAppend, none, List.append_nil]
  refine ⟨?_, fun few => ?_, wide, h.safe, ?_⟩
  · rintro _ ⟨vs, typed, rfl⟩
    exact sized vs typed
  · rw [Within, same]
    exact made.within (by simp only [operandLimit]; omega)
  · rintro refs room counted _ rest ⟨vs, typed, rfl⟩
    refine ⟨fun bad small => harmlessNeverTrips h small _ bad, fun large => ?_⟩
    rw [Within, same] at large
    rw [WordSized, same] at room
    simp only [not_forall, not_le] at large
    obtain ⟨n, inside, tooLarge⟩ := large
    rw [shape]
    exact ((made.settles refs counted vs rest typed).trips ⟨⟨n, inside, tooLarge⟩, room⟩).append tail

end OperandsDecide

namespace Lower

/- The fragments of a contract, with how many values can wait at once and with what each is run on, top first:
a slice of any content, or values of the types that it is made for. These are written to cells, so machine integers
have to count their bits. -/
inductive Takes (target : Target) (u : SourceUnit) (c : Contract) : Fragment → Nat → Prop → (List Value → Prop) → Prop
  | decode {f : Function} {frag : Fragment} (mem : f ∈ c.functions) (pub : f.isPublic = true)
      (ok : Lower.decode target f = .ok frag) : Takes target u c frag 0 True fun input => ∃ s, input = [.slice s]
  | encode {f : Function} {frag : Fragment} (mem : f ∈ c.functions) (pub : f.isPublic = true)
      (ordinary : f.kind = .function) (ok : Lower.encode target f = .ok frag) :
      Takes target u c frag (Ty.slotsAll (types f.returns))
        (Ty.Counted target functionIdBits (types f.returns)) fun input =>
        ∃ vs, HaveTypes target (types f.returns) vs ∧ input = vs.reverse
  | load {frag : Fragment} (ok : loadState target (u.stateMembers c) = .ok frag) :
      Takes target u c frag 0 True fun input => input = []
  | store {frag : Fragment} (ok : storeState target (u.stateMembers c) = .ok frag) :
      Takes target u c frag (Ty.slotsAll ((u.stateMembers c).map Prod.snd))
        (Ty.Counted target 0 ((u.stateMembers c).map Prod.snd)) fun input =>
        ∃ vs, HaveTypes target ((u.stateMembers c).map Prod.snd) vs ∧ input = vs.reverse
  | default {name : String} {names : List String} {types : List Ty} {d t o : Fragment}
      (used : .struct name names types ∈ usedStructs u c) (encodable : Encodable name names types)
      (ok : helpers target name names types = .ok [d, t, o]) : Takes target u c d 0 True fun input => input = []
  | toBuilder {name : String} {names : List String} {types : List Ty} {d t o : Fragment}
      (used : .struct name names types ∈ usedStructs u c) (encodable : Encodable name names types)
      (ok : helpers target name names types = .ok [d, t, o]) :
      Takes target u c t (Ty.slotsAll types) (Ty.Counted target 0 types) fun input =>
        ∃ vs, HaveTypes target types vs ∧ input = [.tuple vs]
  | ofSlice {name : String} {names : List String} {types : List Ty} {d t o : Fragment}
      (used : .struct name names types ∈ usedStructs u c) (encodable : Encodable name names types)
      (ok : helpers target name names types = .ok [d, t, o]) :
      Takes target u c o 0 True fun input => ∃ s, input = [.slice s]

variable {u : SourceUnit} {c : Contract} {frag : Fragment}

theorem fragmentTakes {program : Program} (lowered : lower target u c = .ok program)
    (mem : frag ∈ program.fragments) : ∃ slots counted inputs, Takes target u c frag slots counted inputs := by
  obtain ⟨functions, load, store, structs, emitted, loadOk, storeOk, made, parts⟩ := lowerParts lowered
  simp only [parts, List.mem_append, List.mem_cons, List.not_mem_nil, or_false] at mem
  rcases mem with (inside | rfl | rfl) | inside
  · obtain ⟨f, declared, pub, ok | ⟨ordinary, ok⟩⟩ := functionsOnly emitted inside
    · exact ⟨_, _, _, .decode declared pub ok⟩
    · exact ⟨_, _, _, .encode declared pub ordinary ok⟩
  · exact ⟨_, _, _, .load loadOk⟩
  · exact ⟨_, _, _, .store storeOk⟩
  · obtain ⟨name, names, types, own, used, encodable, ok, own'⟩ := structsOnly made inside
    obtain ⟨d, t, o, -, -, -, rfl⟩ := helpersOk ok
    simp only [List.mem_cons, List.not_mem_nil, or_false] at own'
    rcases own' with rfl | rfl | rfl
    · exact ⟨_, _, _, .default used encodable ok⟩
    · exact ⟨_, _, _, .toBuilder used encodable ok⟩
    · exact ⟨_, _, _, .ofSlice used encodable ok⟩

theorem fragmentObeys {P : Int → List Instr → Int → Prop} (reads : ReadLaw target P) (writes : WriteLaw target P)
    {program : Program} (lowered : lower target u c = .ok program) (mem : frag ∈ program.fragments) :
    ∃ d d', P d frag.code d' := by
  obtain ⟨slots, counted, inputs, takes⟩ := fragmentTakes lowered mem
  cases takes with
  | decode mem pub ok =>
    obtain ⟨code, emitted, made⟩ := okOfBind ok
    cases made
    exact decodeObeys reads emitted
  | @encode f _ mem pub ordinary ok =>
    obtain ⟨code, emitted, made⟩ := okOfBind ok
    cases made
    rw [encodeArranged] at emitted
    exact codeOfObeys (writes.bind (writes.arrange _) fun _ => answerObeys writes f) emitted
  | load ok => exact loadStateObeys reads ok
  | store ok =>
    rw [storeStateArranged] at ok
    obtain ⟨code, emitted, made⟩ := okOfBind ok
    cases made
    exact codeOfObeys (writes.bind (writes.arrange _) fun _ => stateObeys writes _ _) emitted
  | default used encodable ok =>
    obtain ⟨_, _, _, emitted, -, -, made⟩ := helpersOk ok
    cases made
    exact codeOfObeys (reads.recordDefault _ false nofun) emitted
  | toBuilder used encodable ok =>
    obtain ⟨_, _, _, -, emitted, -, made⟩ := helpersOk ok
    cases made
    exact codeOfObeys (writes.toBuilder _) emitted
  | ofSlice used encodable ok =>
    obtain ⟨_, _, _, -, -, emitted, made⟩ := helpersOk ok
    cases made
    exact codeOfObeys (reads.ofSlice _) emitted

theorem encodeDecides {f : Function} (ok : encode target f = .ok frag) :
    OperandsDecide target frag (Ty.slotsAll (types f.returns)) (Ty.Counted target functionIdBits (types f.returns))
      fun input => ∃ vs, HaveTypes target (types f.returns) vs ∧ input = vs.reverse := by
  obtain ⟨code, emitted, made⟩ := okOfBind ok
  cases made
  obtain ⟨p, marks, begun, assembles⟩ := encodeAssembles emitted
  rw [encodeArranged] at emitted
  obtain ⟨harmless, wide⟩ := arrangedCode (answerObeys harmlessWrites f) emitted
  rw [← (Position.startOk begun).2.2.2.1]
  refine .ofAssembles assembles (List.append_nil code).symm rfl (fun vs typed => ?_) wide harmless
  simp [typed.length, types]

theorem storeDecides {members : List (String × Ty)} (ok : storeState target members = .ok frag) :
    OperandsDecide target frag (Ty.slotsAll (members.map Prod.snd)) (Ty.Counted target 0 (members.map Prod.snd))
      fun input => ∃ vs, HaveTypes target (members.map Prod.snd) vs ∧ input = vs.reverse := by
  obtain ⟨p, marks, code, shape, begun, assembles⟩ := storeStateAssembles ok
  rw [storeStateArranged] at ok
  obtain ⟨whole, emitted, made⟩ := okOfBind ok
  cases made
  obtain ⟨harmless, wide⟩ := arrangedCode (stateObeys harmlessWrites _ _) emitted
  rw [← (Position.startOk begun).2.2.2.1]
  refine .ofAssembles assembles shape (by decide) (fun vs typed => ?_) wide harmless
  simp [typed.length]

theorem takesDecides {slots : Nat} {counted : Prop} {inputs : List Value → Prop}
    (takes : Takes target u c frag slots counted inputs) : OperandsDecide target frag slots counted inputs := by
  cases takes with
  | decode mem pub ok =>
    obtain ⟨code, emitted, made⟩ := okOfBind ok
    cases made
    obtain ⟨_, _, harmless⟩ := decodeObeys harmlessReads emitted
    exact .ofHarmless le_rfl (by rintro _ ⟨s, rfl⟩; rfl) harmless
  | encode mem pub ordinary ok => exact encodeDecides ok
  | load ok =>
    have none : frag.args = 0 := by
      obtain ⟨code, emitted, made⟩ := okOfBind ok
      cases made
      rfl
    obtain ⟨_, _, harmless⟩ := loadStateObeys harmlessReads ok
    exact .ofHarmless (by omega) (by rintro _ rfl; rw [none]; rfl) harmless
  | store ok => exact storeDecides ok
  | default used encodable ok =>
    obtain ⟨_, _, _, emitted, -, -, made⟩ := helpersOk ok
    cases made
    refine .ofHarmless zero_le_one (by rintro _ rfl; rfl) ?_
    exact codeOfWrites (harmlessReads.recordDefault _ false nofun) emitted
  | toBuilder used encodable ok =>
    obtain ⟨_, _, _, -, emitted, -, made⟩ := helpersOk ok
    cases made
    obtain ⟨p, marks, begun, assembles⟩ := codeOfWrites (Record.toBuilderAssembles _) emitted
    rw [← (Position.startOk begun).2.2.2.1]
    refine .ofAssembles assembles (List.append_nil _).symm rfl (fun _ _ => rfl) (fun many => ?_)
      (codeOfWrites (harmlessWrites.toBuilder _) emitted)
    simp [operandLimit] at many
  | ofSlice used encodable ok =>
    obtain ⟨_, _, _, -, -, emitted, made⟩ := helpersOk ok
    cases made
    exact .ofHarmless le_rfl (by rintro _ ⟨s, rfl⟩; rfl) (codeOfWrites (harmlessReads.ofSlice _) emitted)

end Lower

theorem loweredOperandsDecide {u : SourceUnit} {c : Contract} {program : Program}
    (lowered : lower target u c = .ok program) {frag : Fragment} (mem : frag ∈ program.fragments) :
    (∃ slots counted inputs, Lower.Takes target u c frag slots counted inputs) ∧
      ∀ slots counted inputs, Lower.Takes target u c frag slots counted inputs →
        OperandsDecide target frag slots counted inputs :=
  ⟨Lower.fragmentTakes lowered mem, fun _ _ _ takes => Lower.takesDecides takes⟩

def flagged (n : Nat) : Contract :=
  let here : Place := ⟨"", 1, 1⟩
  ⟨"Flagged", [], (List.range n).map fun k => ⟨"flag" ++ toString k, .bool, here⟩, [], [], here⟩

def flaggedUnit (n : Nat) : SourceUnit := ⟨[], [flagged n], ⟨"", 1, 1⟩⟩

theorem flaggedTypes (n : Nat) : ((flaggedUnit n).stateMembers (flagged n)).map Prod.snd =
    .uint 256 :: .uint 64 :: .bool :: List.replicate n .bool := by
  simp [SourceUnit.stateMembers, SourceUnit.baseFirst, stateHeader, flagged, Function.comp_def]

theorem clearFlags (n : Nat) : HaveTypes target (List.replicate n .bool) (List.replicate n (.int 0)) := by
  induction n with
  | zero => exact .nil
  | succ n ih => exact .cons (.bool (.inl rfl)) ih

theorem flaggedLowers : (lower (Settings.vm {}) (flaggedUnit 253) (flagged 253)).toOption.isSome = true := by
  decide +kernel

theorem flaggedOperands : (do
    let store ← Lower.storeState (Settings.vm {}) ((flaggedUnit 253).stateMembers (flagged 253))
    .ok (store.args, decide (WordSized store.code))).toOption = some (256, true) := by
  decide +kernel

theorem flaggedStateTrips : ∃ program, lower (Settings.vm {}) (flaggedUnit 253) (flagged 253) = .ok program ∧
    ∃ store ∈ program.fragments,
      Lower.storeState (Settings.vm {}) ((flaggedUnit 253).stateMembers (flagged 253)) = .ok store ∧
      ¬Within store.code ∧ ∃ vs,
        HaveTypes (Settings.vm {}) (((flaggedUnit 253).stateMembers (flagged 253)).map Prod.snd) vs ∧
        ∀ rest, Trips (Settings.vm {}).cell store.code (vs.reverse ++ rest) := by
  obtain ⟨program, found⟩ := Option.isSome_iff_exists.1 flaggedLowers
  obtain ⟨store, ok, seen⟩ := okOfBind (okOfOption flaggedOperands)
  obtain ⟨args, room⟩ := Prod.mk.inj (Except.ok.inj seen)
  obtain ⟨_, _, store', _, -, -, storeOk, -, parts⟩ := lowerParts (okOfOption found)
  cases Except.ok.inj (ok.symm.trans storeOk)
  have inside : store ∈ program.fragments := by simp [parts]
  have decided := (loweredOperandsDecide (okOfOption found) inside).2 _ _ _ (.store ok)
  have large := decided.wide (by rw [args]; decide)
  have typed : HaveTypes (Settings.vm {}) (((flaggedUnit 253).stateMembers (flagged 253)).map Prod.snd)
      (.int 0 :: .int 0 :: .int 0 :: List.replicate 253 (.int 0)) := by
    rw [flaggedTypes]
    exact .cons (.unsigned (by decide) (by decide) (by decide))
      (.cons (.unsigned (by decide) (by decide) (by decide)) (.cons (.bool (.inl rfl)) (clearFlags 253)))
  have counted : Ty.Counted (Settings.vm {}) 0 (((flaggedUnit 253).stateMembers (flagged 253)).map Prod.snd) := by
    rw [flaggedTypes]
    exact ⟨by decide +kernel, by decide +kernel⟩
  refine ⟨program, okOfOption found, store, inside, ok, large, _, typed, fun rest => ?_⟩
  exact (decided.trips (by decide) (of_decide_eq_true room) counted _ rest ⟨_, typed, rfl⟩).2 large

end CellChain
