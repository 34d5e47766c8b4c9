import Mathlib
import CellChain.Proofs.Composition
import CellChain.Proofs.CodeNeeds
/-! The modelled depth is the depth of the machine's stack: whatever is emitted through the exported
operations uses only the entries that the model counts, and leaves as many as the model says. Each call that is
made on the way has a body that does what the call declares, as far as its number of entries goes. -/
namespace CellChain

open Machine (Moves Uses run step)

theorem Opcode.plainLeaves {o : Opcode} {operands : List Int} {pops pushes : Int} (plain : o.counts = false)
    (effect : Instr.effect? (.simple o operands) = some (pops, pushes)) : 0 ≤ pushes := by
  cases o <;> cases plain <;> cases effect <;> decide

namespace Emit

variable {α β : Type} {target : Target} {closed : Prop}

structure Tracked (closed : Prop) (before : Int) (code : List Instr) (after : Int) : Prop
    extends Moves before after (run code) where
  enough : needOf code ≤ max 0 before
  net : after = before + netOf code
  works : AsDeclared code
  calls : ∀ c ∈ callsOf code, c.Honest ∧ (closed → needOf c.body ≤ c.arguments)

namespace Tracked

theorem ofDeclared {before after : Int} {code : List Instr} (enough : needOf code ≤ max 0 before)
    (net : after = before + netOf code) (works : AsDeclared code)
    (calls : ∀ c ∈ callsOf code, c.Honest ∧ (closed → needOf c.body ≤ c.arguments)) :
    Tracked closed before code after :=
  ⟨works.moves enough net, enough, net, works, calls⟩

theorem runNil {d : Int} : Tracked closed d [] d :=
  ofDeclared (by simp [needOf]) (by simp) .nil (by simp [callsOf])

theorem runAppend {d m d' : Int} {a b : List Instr} (first : Tracked closed d a m)
    (second : Tracked closed m b d') : Tracked closed d (a ++ b) d' := by
  refine ofDeclared ?_ ?_ (first.works.append second.works) ?_
  · have := first.enough
    have := second.enough
    have := first.net
    have := needCoversNet a
    rw [needAppend]
    omega
  · rw [second.net, first.net, netAppend]
    omega
  · intro c inside
    rw [callsAppend, List.mem_append] at inside
    exact inside.elim (first.calls c) (second.calls c)

theorem callRef {d d' arguments results : Int} {body : List Instr} (balanced : d' = d - arguments + results)
    (own : closed → needOf body ≤ arguments) (h : Tracked closed d body d') :
    Tracked closed d [.callRef arguments results body] d' := by
  have same : netOf body = results - arguments := by
    have := h.net
    omega
  have covers := needCoversNet body
  have low := needNonneg body
  have need : needOf [.callRef arguments results body] = needOf body := by
    simp only [needOf, Instr.need, Instr.net]
    omega
  have net : netOf [.callRef arguments results body] = netOf body := by
    simp only [netCons, netNil, Instr.net]
    omega
  have operands : operandsOf [.callRef arguments results body] = operandsOf body := by
    simp [operandsOf, Instr.overStack]
  refine ofDeclared (need ▸ h.enough) (net ▸ h.net) ?_ ?_
  · rw [AsDeclared, WordSized, operands, need, net]
    exact .runOne (.callRef h.works)
  · intro c inside
    simp only [callsOf, Instr.calls, List.append_nil, List.mem_cons] at inside
    rcases inside with rfl | nested
    · exact ⟨⟨same, h.works⟩, own⟩
    · exact h.calls c nested

end Tracked

theorem trackedCarried {o : Opcode} {operands : List Int} {pops pushes d : Int} (carried : o.stackOperands = false)
    (effect : Instr.effect? (.simple o operands) = some (pops, pushes)) (left : 0 ≤ pushes ∨ pops = pushes)
    (enough : pops ≤ d) : Tracked closed d [.simple o operands] (d + (pushes - pops)) := by
  obtain ⟨own, change⟩ := Instr.ofEffect effect
  have need : needOf [.simple o operands] = max (max 0 pops) (pops - pushes) := by
    simp only [needOf, own, change]
    omega
  have net : netOf [.simple o operands] = pushes - pops := by
    simp [change]
  refine .ofDeclared (by omega) (by omega) ?_ (by simp [callsOf, Instr.calls])
  rw [AsDeclared, need, net]
  have uses : Uses (WordSized [.simple o operands]) pops (pushes - pops) (step (.simple o operands)) := by
    simpa only [step] using Uses.simple carried effect
  exact uses.runOne.change (by omega) fun _ => by omega

theorem trackedComposes : Composes (Tracked closed) where
  nothing _ := .runNil
  joined first second := first.runAppend second
  literal x d := by
    have need : needOf [.pushInt x] = 0 := by simp [needOf]
    have net : netOf [.pushInt x] = 1 := by simp
    refine .ofDeclared (by omega) (by omega) ?_ (by simp [callsOf, Instr.calls])
    rw [AsDeclared, need, net]
    exact .runOne (by simpa only [step] using Uses.push (.int x))
  plain few effect enough :=
    trackedCarried (Opcode.carriedOfPlain few) effect (.inl (Opcode.plainLeaves few effect)) enough
  called balanced own h := h.callRef balanced fun _ => own

theorem carriedTracked {o : Opcode} {operands : List Int} {pops pushes : Int} (carried : o.stackOperands = false)
    (effect : Instr.effect? (.simple o operands) = some (pops, pushes)) (left : 0 ≤ pushes ∨ pops = pushes) :
    Obeys target (Tracked closed) (op o operands) := by
  refine Writes.instr fun d pops' pushes' found enough => ?_
  rw [effect] at found
  cases found
  exact trackedCarried carried effect left enough

theorem operandLe {n : Int} (least : -2 ^ 255 ≤ n) (small : (BitVec.ofInt 256 n).toNat ≤ 255) :
    ((BitVec.ofInt 256 n).toNat : Int) ≤ n := by
  -- A negative number is read as a large one.
  rw [BitVec.toNat_ofInt] at *
  omega

theorem operandGe {n : Int} (most : n < 2 ^ 256) : n ≤ (BitVec.ofInt 256 n).toNat := by
  rw [BitVec.toNat_ofInt]
  omega

theorem twoOperands {o : Opcode} {n i : Int} {body : Nat → Nat → Machine.Step Unit} (taken : o.stackOperands = true)
    (effect : Instr.effect? (.simple o [n, i]) = some (n + i + 2, n + i))
    (shape : Machine.simple o [n, i] = do
      let j ← Machine.popOperand 255; let k ← Machine.popOperand 255; body k j)
    (uses : ∀ (sized : Prop) (k j : Nat), Uses sized ((k : Int) + j) 0 (body k j))
    (first : -2 ^ 255 ≤ n) (second : -2 ^ 255 ≤ i) :
    Obeys target (Tracked closed) (do pushSmall n; pushSmall i; op o [n, i]) := by
  refine Writes.bind (.pushSmall n) ?_
  rintro d _ _ _ ⟨rfl, rfl⟩
  refine Writes.bind (.pushSmall i) ?_
  rintro middle _ _ _ ⟨rfl, rfl⟩
  refine Writes.instr fun last pops pushes found enough same same' => ?_
  rw [effect] at found
  cases found
  subst same same'
  change Tracked closed d [.pushInt (BitVec.ofInt 256 n), .pushInt (BitVec.ofInt 256 i), .simple o [n, i]] _
  generalize listed : [Instr.pushInt (BitVec.ofInt 256 n), .pushInt (BitVec.ofInt 256 i), .simple o [n, i]] = code
  obtain ⟨own, change⟩ := Instr.ofEffect effect
  have need : needOf code = max 0 (n + i) := by
    simp only [← listed, needOf, own, change, Instr.needPush, Instr.netPush]
    omega
  have net : netOf code = 0 := by
    simp only [← listed, netCons, netNil, change, Instr.netPush]
    omega
  have sized (h : WordSized code) : n < 2 ^ 256 ∧ i < 2 ^ 256 := by
    simpa [← listed, WordSized, operandsOf, Instr.overStack, taken] using h
  refine .ofDeclared (by omega) (by omega) ?_ (by simp [← listed, callsOf, Instr.calls])
  rw [AsDeclared, need, net]
  nth_rewrite 2 [← listed]
  refine Uses.runOperands shape fun one two => (uses _ _ _).change ?_ fun fits => ?_
  · have := operandLe first one
    have := operandLe second two
    omega
  · have := operandGe (sized fits).1
    have := operandGe (sized fits).2
    omega

theorem oneOperand {o : Opcode} {k : Int} {high : Nat} {pops pushes : Int} {body : Nat → Machine.Step Unit}
    (uses : ∀ sized : Prop, Uses sized pops (pushes - pops) (body k.toNat)) (low : 0 ≤ pops) (left : 0 ≤ pushes)
    (effect : Instr.effect? (.simple o [k]) = some (pops + 1, pushes))
    (shape : Machine.simple o [k] = do let n ← Machine.popOperand high; body n) (range : 0 ≤ k ∧ k ≤ maxTupleSize) :
    Obeys target (Tracked closed) (do pushSmall k; op o [k]) := by
  refine Writes.bind (.pushSmall k) ?_
  rintro d _ _ _ ⟨rfl, rfl⟩
  refine Writes.instr fun last pops' pushes' found enough same => ?_
  rw [effect] at found
  cases found
  subst same
  change Tracked closed d [.pushInt (BitVec.ofInt 256 k), .simple o [k]] _
  obtain ⟨own, change⟩ := Instr.ofEffect effect
  have need : needOf [.pushInt (BitVec.ofInt 256 k), .simple o [k]] = pops := by
    simp only [needOf, own, change, Instr.needPush, Instr.netPush]
    omega
  have net : netOf [.pushInt (BitVec.ofInt 256 k), .simple o [k]] = pushes - pops := by
    simp only [netCons, netNil, change, Instr.netPush]
    omega
  have small : (BitVec.ofInt 256 k).toNat = k.toNat := by
    unfold maxTupleSize at range
    exact Machine.smallWord range.1 (by omega)
  refine .ofDeclared (by omega) (by omega) ?_ (by simp [callsOf, Instr.calls])
  rw [AsDeclared, need, net]
  exact Uses.runOperand shape fun _ => by rw [small]; exact uses _

theorem reverseTracked {n i : Int} (second : -2 ^ 255 ≤ i) : Obeys target (Tracked closed) (reverse n i) := by
  refine .checkThen fun two => ?_
  split
  · exact carriedTracked rfl rfl (.inr rfl)
  · exact twoOperands rfl rfl rfl (fun _ => .reverse) (by omega) second

theorem blockSwapTracked {i j : Int} (first : -2 ^ 255 ≤ i) (second : -2 ^ 255 ≤ j) :
    Obeys target (Tracked closed) (blockSwap i j) := by
  unfold blockSwap
  split
  · exact trackedComposes.pure ()
  split
  · exact carriedTracked rfl rfl (.inr rfl)
  split
  · exact carriedTracked rfl rfl (.inr rfl)
  · exact twoOperands rfl rfl rfl (fun _ => .blockSwap) first second

theorem tupleTracked (n : Int) : Obeys target (Tracked closed) (tuple n) := by
  refine .checkThen fun range => ?_
  split
  · exact carriedTracked rfl rfl (.inl (by decide))
  · have uses (sized : Prop) : Uses sized n (1 - n) (Machine.tuple n.toNat) :=
      (Uses.tuple n.toNat).told (by omega) (by omega)
    exact oneOperand uses range.1 (by decide) rfl rfl range

theorem untupleTracked (n : Int) : Obeys target (Tracked closed) (untuple n) := by
  refine .checkThen fun range => ?_
  split
  · exact carriedTracked rfl rfl (.inl range.1)
  · have uses (sized : Prop) : Uses sized 1 (n - 1) (Machine.untuple n.toNat) :=
      (Uses.untuple n.toNat).told rfl (by omega)
    exact oneOperand uses (by decide) range.1 rfl rfl range

theorem indexTracked (k : Int) : Obeys target (Tracked closed) (index k) := by
  refine .checkThen fun range => ?_
  split
  · exact carriedTracked rfl rfl (.inl (by decide))
  · have uses (sized : Prop) : Uses sized 1 (1 - 1) (Machine.index k.toNat) := .index k.toNat
    exact oneOperand uses (by decide) (by decide) rfl rfl range

theorem setIndexTracked (k : Int) : Obeys target (Tracked closed) (setIndex k) := by
  refine .checkThen fun range => ?_
  split
  · exact carriedTracked rfl rfl (.inl (by decide))
  · have uses (sized : Prop) : Uses sized 2 (1 - 2) (Machine.setIndex k.toNat) := .setIndex k.toNat
    exact oneOperand uses (by decide) (by decide) rfl rfl range

theorem trackedReads : ReadLaw target (Tracked closed) where
  toComposes := trackedComposes
  tuple := tupleTracked
  group k := trackedComposes.bind (blockSwapTracked (by omega) (by decide)) fun _ =>
    trackedComposes.bind (tupleTracked k) fun _ => trackedComposes.op rfl

theorem trackedWrites : WriteLaw target (Tracked closed) where
  toComposes := trackedComposes
  untuple := untupleTracked
  reverse _ := reverseTracked (by decide)
  blockSwap _ low := blockSwapTracked (by omega) (by decide)

theorem dictPositionTracked (t : Ty) (key : Int) : Obeys target (Tracked closed) (dictPosition t key) := by
  have law := @trackedComposes closed
  refine law.bind law.readTarget fun limits => ?_
  cases t with
  | struct name names types => exact law.bind law.check fun _ => law.lift
  | integer | bool | mapping | array | bytes | named | tuple | cell | address | other => exact law.lift

theorem slotTracked (r : Record) (name : String) : Obeys target (Tracked closed) (r.slot name) := by
  unfold Record.slot
  cases r.names.findIdx? (· == name) with
  | none => exact Composes.abort
  | some k => exact trackedComposes.pure (k : Int)

end Emit

/- Open blocks fit together: each one takes the stack from the depth at which it began to the depth at which
the next one was opened, and the innermost one to the present depth. -/
def Chained (start : Int) : Block → List Block → Int → Prop
  | block, [], depth => block.entry = start ∧ Emit.Tracked False block.entry block.code depth
  | block, parent :: outer, depth =>
    Emit.Tracked False block.entry block.code depth ∧ Chained start parent outer block.entry

theorem chainedWrite {start : Int} {block : Block} {outer : List Block} {depth depth' : Int} {code : List Instr}
    (h : Chained start block outer depth) (more : Emit.Tracked False depth code depth') :
    Chained start { block with code := block.code ++ code } outer depth' := by
  cases outer with
  | nil => exact ⟨h.1, h.2.runAppend more⟩
  | cons parent outer => exact ⟨h.1.runAppend more, h.2⟩

namespace Emit

variable {α β : Type}

def Keeps (x : Emit α) : Prop :=
  ∀ start e a e', x e = .ok (a, e') → Chained start e.block e.outer e.depth →
    Chained start e'.block e'.outer e'.depth

namespace Keeps

theorem ofTracked {x : Emit α} (h : ∀ target, Obeys target (Tracked False) x) : Keeps x := by
  intro start e a e' ok chained
  obtain ⟨code, depth, rfl, moved⟩ := h e.target e a e' rfl ok
  exact chainedWrite chained moved

theorem bind {x : Emit α} {f : α → Emit β} (first : Keeps x) (second : ∀ a, Keeps (f a)) : Keeps (x >>= f) := by
  intro start e b e' ok chained
  obtain ⟨a, middle, one, two⟩ := bindOk ok
  exact second a start middle b e' two (first start e a middle one chained)

theorem startContinuation : Keeps Emit.startContinuation := by
  intro start e a e' ok chained
  cases ok
  exact ⟨.runNil, chained⟩

theorem callRef {arguments results : Int} : Keeps (Emit.callRef arguments results) := by
  intro start e a e' ok chained
  obtain ⟨parent, outer, around, balanced, rfl⟩ := callRefOk ok
  rw [around] at chained
  exact chainedWrite chained.2 (chained.1.callRef balanced False.elim)

theorem fill {r : Record} {produce : Nat → Ty → Emit Unit} (each : ∀ k t, Keeps (produce k t)) (s : Record.Slot) :
    Keeps (r.fill produce s) := by
  cases s with
  | empty t => exact ofTracked fun _ => trackedReads.pushDefault.1 t
  | argument k t =>
    refine bind (ofTracked fun _ => trackedComposes.depth) fun _ => bind (each k t) fun _ => ?_
    exact ofTracked fun _ => trackedComposes.ensureDepth
  | refused cause => exact ofTracked fun _ => Composes.abort

theorem fillAll {r : Record} {produce : Nat → Ty → Emit Unit} (each : ∀ k t, Keeps (produce k t))
    (slots : List Record.Slot) : Keeps (r.fillAll produce slots) := by
  induction slots with
  | nil => exact ofTracked fun _ => trackedComposes.pure ()
  | cons s rest ih => exact bind (fill each s) fun _ => ih

theorem construct {r : Record} {given : Option (List String)} {produce : Nat → Ty → Emit Unit}
    (each : ∀ k t, Keeps (produce k t)) : Keeps (r.construct given produce) := by
  refine bind (ofTracked fun _ => trackedComposes.depth) fun _ => bind (fillAll each _) fun _ => ?_
  exact ofTracked fun _ => trackedComposes.bind (tupleTracked _) fun _ => trackedComposes.ensureDepth

end Keeps

/- What a client of the emitter can do: the exported operations one after the other, each chosen freely in
view of what came before. Numbers that a client passes as operands are machine integers. An argument of a
constructor is again pushed by exported operations. -/
inductive Exported : {α : Type} → Emit α → Prop where
  | pure {α : Type} (a : α) : Exported (Pure.pure a)
  | bind {α β : Type} {x : Emit α} {f : α → Emit β} (first : Exported x) (second : ∀ a, Exported (f a)) :
      Exported (x >>= f)
  | depth : Exported depth
  | target : Exported target
  | ensureDepth (expected : Int64) (construct : String) : Exported (ensureDepth expected.toInt construct)
  | pushInt (x : Word) : Exported (pushInt x)
  | pushSmall (n : Int64) : Exported (pushSmall n.toInt)
  | pushNull : Exported (op .null)
  | pushDefault (t : Ty) : Exported (pushDefault t)
  | drop : Exported drop
  | nip : Exported nip
  | swap : Exported swap
  | rot : Exported rot
  | rotRev : Exported rotRev
  | reverse (n i : Int64) : Exported (reverse n.toInt i.toInt)
  | blockSwap (i j : Int64) : Exported (blockSwap i.toInt j.toInt)
  | tuple (n : Int64) : Exported (tuple n.toInt)
  | untuple (n : Int64) : Exported (untuple n.toInt)
  | index (k : Int64) : Exported (index k.toInt)
  | setIndex (k : Int64) : Exported (setIndex k.toInt)
  | pair : Exported pair
  | unpair : Exported unpair
  | newBuilder : Exported newBuilder
  | endBuilder : Exported endBuilder
  | toSlice : Exported toSlice
  | endSlice : Exported endSlice
  | pushRoot : Exported pushRoot
  | popRoot : Exported popRoot
  | startContinuation : Exported startContinuation
  | callRef (arguments results : Int64) : Exported (callRef arguments.toInt results.toInt)
  | storeValues (types : List Ty) (p : Position) : Exported (storeValues types p)
  | loadValues (types : List Ty) (p : Position) : Exported (loadValues types p)
  | storeDictValue (t : Ty) (key : Int64) : Exported (storeDictValue t key.toInt)
  | loadDictValue (t : Ty) (key : Int64) : Exported (loadDictValue t key.toInt)
  | recordDefault (r : Record) (asBuilder : Bool) : Exported (r.default asBuilder)
  | construct (r : Record) (given : Option (List String)) (produce : Nat → Ty → Emit Unit)
      (each : ∀ k t, Exported (produce k t)) : Exported (r.construct given produce)
  | get (r : Record) (name : String) : Exported (r.get name)
  | set (r : Record) (name : String) : Exported (r.set name)
  | toBuilder (r : Record) : Exported r.toBuilder
  | ofSlice (r : Record) : Exported r.ofSlice

theorem machineIntLeast (n : Int64) : -2 ^ 255 ≤ n.toInt := by
  have := n.le_toInt
  omega

theorem exportedKeeps {α : Type} {x : Emit α} (h : Exported x) : Keeps x := by
  have law := @trackedComposes False
  induction h with
  | pure a => exact Keeps.ofTracked fun _ => law.pure a
  | bind _ _ first second => exact Keeps.bind first second
  | depth => exact Keeps.ofTracked fun _ => law.depth
  | target => exact Keeps.ofTracked fun _ => law.readTarget
  | ensureDepth => exact Keeps.ofTracked fun _ => law.ensureDepth
  | pushInt | pushSmall => exact Keeps.ofTracked fun _ => law.pushInt _
  | pushDefault t => exact Keeps.ofTracked fun _ => trackedReads.pushDefault.1 t
  | pushNull | drop | nip | swap | rot | rotRev | pair | unpair | newBuilder | endBuilder | toSlice | endSlice
  | pushRoot | popRoot => exact Keeps.ofTracked fun _ => law.op rfl
  | reverse n i => exact Keeps.ofTracked fun _ => reverseTracked (machineIntLeast i)
  | blockSwap i j => exact Keeps.ofTracked fun _ => blockSwapTracked (machineIntLeast i) (machineIntLeast j)
  | tuple n => exact Keeps.ofTracked fun _ => tupleTracked _
  | untuple n => exact Keeps.ofTracked fun _ => untupleTracked _
  | index k => exact Keeps.ofTracked fun _ => indexTracked _
  | setIndex k => exact Keeps.ofTracked fun _ => setIndexTracked _
  | startContinuation => exact Keeps.startContinuation
  | callRef => exact Keeps.callRef
  | storeValues types p => exact Keeps.ofTracked fun _ => trackedWrites.storeValues types p
  | loadValues types p => exact Keeps.ofTracked fun _ => trackedReads.loadValues types p
  | storeDictValue t key =>
    exact Keeps.ofTracked fun _ => law.bind (dictPositionTracked t _) fun _ =>
      law.bind (trackedWrites.storeValues _ _) fun _ => law.check
  | loadDictValue t key =>
    exact Keeps.ofTracked fun _ => law.bind (dictPositionTracked t _) fun _ =>
      law.bind (trackedReads.loadValues _ _) fun _ => law.check
  | recordDefault r asBuilder =>
    exact Keeps.ofTracked fun _ => trackedReads.recordDefault r asBuilder fun _ => trackedWrites.toBuilder r
  | construct r given produce _ each => exact Keeps.construct each
  | get r name => exact Keeps.ofTracked fun _ => law.bind (slotTracked r name) fun k => indexTracked k
  | set r name => exact Keeps.ofTracked fun _ => law.bind (slotTracked r name) fun k => setIndexTracked k
  | toBuilder r => exact Keeps.ofTracked fun _ => trackedWrites.toBuilder r
  | ofSlice r => exact Keeps.ofTracked fun _ => trackedReads.ofSlice r

end Emit

theorem finishedCode {e : Emitter} {code : List Instr} (finished : e.code = .ok code) :
    e.outer = [] ∧ e.block.code = code := by
  cases around : e.outer with
  | nil =>
    simp only [Emitter.code, around, require] at finished
    exact ⟨rfl, Except.ok.inj finished⟩
  | cons parent outer => simp [Emitter.code, around, require, bind, Except.bind] at finished

theorem exportedCodeFollowsDepth {α : Type} {x : Emit α} (client : Emit.Exported x) {target : Target} {start : Int}
    {a : α} {e : Emitter} {code : List Instr} (emitted : x (Emitter.start target start) = .ok (a, e))
    (finished : e.code = .ok code) (m : Machine) (bottom : List Value) (enough : start ≤ m.stack.length) :
    run code (m.above bottom) = Machine.outcomeAbove bottom (run code m) ∧
    (∀ h m', run code (m.above bottom) = .error h m' → h.isUnderflow = false) ∧
    ∀ m', run code (m.above bottom) = .ok () m' →
      (m'.stack.length : Int) = (m.above bottom).stack.length - start + e.depth := by
  have begun : Chained start (Emitter.start target start).block [] start := ⟨rfl, .runNil⟩
  have chained := Emit.exportedKeeps client start _ a e emitted begun
  obtain ⟨closed, rfl⟩ := finishedCode finished
  rw [closed] at chained
  obtain ⟨entry, moved⟩ := chained
  rw [entry] at moved
  have more : start ≤ (m.above bottom).stack.length := by
    simp only [Machine.above, List.length_append]
    omega
  exact ⟨moved.frame m bottom enough, fun h m' bad => moved.safe _ h m' more bad,
    fun m' ok => moved.length _ () m' more ok⟩

theorem swappedPairFollowsDepth : ∃ e code,
    (Emit.startContinuation >>= fun _ => Emit.swap >>= fun _ => Emit.callRef 2 2 >>= fun _ => Emit.tuple 2)
      (Emitter.start {} 2) = .ok ((), e) ∧ e.code = .ok code ∧ e.depth = 1 ∧
    ∀ m', run code ((Machine.mk [.int 1, .int 2] .empty ⟨1023, 4⟩ 0).above [.null]) = .ok () m' →
      (m'.stack.length : Int) = 3 - 2 + 1 :=
  ⟨_, _, rfl, rfl, rfl, (exportedCodeFollowsDepth
    (.bind .startContinuation fun _ => .bind .swap fun _ => .bind (.callRef 2 2) fun _ => .tuple 2)
    rfl rfl (Machine.mk [.int 1, .int 2] .empty ⟨1023, 4⟩ 0) [.null] (show (2 : Int) ≤ 2 by decide)).2.2⟩

end CellChain
