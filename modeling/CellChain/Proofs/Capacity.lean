import Mathlib
import CellChain.Proofs.Execution
/-! The limits of a cell along a run. A machine whose stack and root are within its limits stays so at every point
of a run, whatever the code is: only what is stored can grow, and what is stored is measured before it is pushed. A
run that halts leaves the machine within its limits as well. -/
namespace CellChain

namespace Cell

inductive Reaches : Cell → Cell → Prop where
  | self (c : Cell) : Reaches c c
  | next {c r d : Cell} (linked : r ∈ c.refs) (further : Reaches r d) : Reaches c d

def Fits (limits : Capacity) (c : Cell) : Prop :=
  ∀ d, c.Reaches d → (d.bits.length : Int) ≤ limits.bits ∧ (d.refs.length : Int) ≤ limits.refs

theorem Fits.ref {limits : Capacity} {c r : Cell} (fits : c.Fits limits) (linked : r ∈ c.refs) : r.Fits limits := by
  intro d reached
  exact fits d (.next linked reached)

theorem Fits.build {limits : Capacity} {bits : List Bool} {refs : List Cell}
    (short : (bits.length : Int) ≤ limits.bits) (few : (refs.length : Int) ≤ limits.refs)
    (each : ∀ r ∈ refs, r.Fits limits) : (Cell.mk bits refs).Fits limits := by
  intro d reached
  cases reached with
  | self => exact ⟨short, few⟩
  | next linked further => exact each _ linked d further

end Cell

def Builder.Fits (limits : Capacity) (b : Builder) : Prop := b.finish.Fits limits

theorem Builder.Fits.each {limits : Capacity} {b : Builder} (fits : b.Fits limits) : ∀ r ∈ b.refs, r.Fits limits := by
  intro r linked
  exact fits.ref linked

theorem Builder.storeRefEach {limits : Capacity} {b : Builder} {c : Cell} (each : ∀ r ∈ b.refs, r.Fits limits)
    (fits : c.Fits limits) : ∀ r ∈ (b.storeRef c).refs, r.Fits limits := by
  intro r linked
  rcases List.mem_append.1 linked with old | new
  · exact each r old
  · rw [List.mem_singleton.1 new]
    exact fits

structure Slice.Fits (limits : Capacity) (s : Slice) : Prop where
  cell : s.cell.Fits limits
  bits : s.bitPos ≤ s.cell.bits.length
  refs : s.refPos ≤ s.cell.refs.length

def tupleLimit : Nat := 255

inductive Value.Fits (limits : Capacity) : Value → Prop where
  | int (x : Word) : Fits limits (.int x)
  | null : Fits limits .null
  | tuple {items : List Value} (few : items.length ≤ tupleLimit) (each : ∀ v ∈ items, Fits limits v) :
      Fits limits (.tuple items)
  | cell {c : Cell} (fits : c.Fits limits) : Fits limits (.cell c)
  | builder {b : Builder} (fits : b.Fits limits) : Fits limits (.builder b)
  | slice {s : Slice} (fits : s.Fits limits) : Fits limits (.slice s)

structure Machine.Fits (limits : Capacity) (m : Machine) : Prop where
  bound : m.limits = limits
  stack : ∀ v ∈ m.stack, v.Fits limits
  root : m.root.Fits limits

variable {limits : Capacity}

namespace Slice

theorem Fits.ofCell {c : Cell} (fits : c.Fits limits) : (ofCell c).Fits limits :=
  ⟨fits, Nat.zero_le _, Nat.zero_le _⟩

theorem Fits.unreadRef {s : Slice} (fits : s.Fits limits) {r : Cell} (unread : r ∈ s.refs) : r.Fits limits :=
  fits.cell.ref (List.mem_of_mem_drop unread)

theorem Fits.take {s t : Slice} {n : Nat} {bits : List Bool} (fits : s.Fits limits)
    (taken : s.take? n = some (bits, t)) : t.Fits limits ∧ (bits.length : Int) ≤ limits.bits := by
  unfold take? at taken
  split at taken
  · rename_i enough
    cases taken
    have unread : s.bits.length = s.cell.bits.length - s.bitPos := List.length_drop
    have whole := (fits.cell s.cell (.self _)).1
    have cursor := fits.bits
    constructor
    · constructor
      · exact fits.cell
      · simp only
        omega
      · exact fits.refs
    · rw [List.length_take]
      omega
  · cases taken

theorem Fits.readRef {s t : Slice} {c : Cell} (fits : s.Fits limits) (taken : s.ref? = some (c, t)) :
    t.Fits limits ∧ c.Fits limits := by
  unfold ref? at taken
  cases unread : s.refs with
  | nil => simp [unread] at taken
  | cons first rest =>
    simp only [unread, Option.some.injEq, Prod.mk.injEq] at taken
    obtain ⟨rfl, rfl⟩ := taken
    have left : s.refs.length = s.cell.refs.length - s.refPos := List.length_drop
    rw [unread, List.length_cons] at left
    constructor
    · constructor
      · exact fits.cell
      · exact fits.bits
      · simp only
        omega
    · exact fits.unreadRef (by rw [unread]; exact List.mem_cons_self)

end Slice

namespace Machine

variable {α β : Type}

/- The step keeps the machine within limits, also when it halts, and `P` holds of what it gives. -/
structure Keeps (limits : Capacity) (P : α → Prop) (x : Step α) : Prop where
  done : ∀ m a m', m.Fits limits → x m = .ok a m' → m'.Fits limits ∧ P a
  halted : ∀ m h m', m.Fits limits → x m = .error h m' → m'.Fits limits

namespace Keeps

theorem pure {P : α → Prop} {a : α} (holds : P a) : Keeps limits P (Pure.pure a : Step α) where
  done m b m' fits ok := by
    cases ok
    exact ⟨fits, holds⟩
  halted m h m' fits bad := by cases bad

theorem bind {P : α → Prop} {Q : β → Prop} {x : Step α} {f : α → Step β} (first : Keeps limits P x)
    (second : ∀ a, P a → Keeps limits Q (f a)) : Keeps limits Q (x >>= f) where
  done m b m' fits ok := by
    cases one : x m with
    | error h middle =>
      rw [bindOfError one] at ok
      cases ok
    | ok a middle =>
      rw [bindOfOk one] at ok
      obtain ⟨within, holds⟩ := first.done m a middle fits one
      exact (second a holds).done middle b m' within ok
  halted m h m' fits bad := by
    cases one : x m with
    | error h' middle =>
      rw [bindOfError one] at bad
      cases bad
      exact first.halted m _ _ fits one
    | ok a middle =>
      rw [bindOfOk one] at bad
      obtain ⟨within, holds⟩ := first.done m a middle fits one
      exact (second a holds).halted middle h m' within bad

theorem throw {P : α → Prop} (h : Halt) : Keeps limits P (MonadExcept.throw h : Step α) where
  done m a m' fits ok := by cases ok
  halted m h m' fits bad := by
    cases bad
    exact fits

theorem fault {P : α → Prop} (kind : Fault) : Keeps limits P (Machine.fault kind : Step α) := throw _

theorem get : Keeps limits (fun m => m.Fits limits) (MonadState.get : Step Machine) where
  done m a m' fits ok := by
    cases ok
    exact ⟨fits, fits⟩
  halted m h m' fits bad := by cases bad

theorem modify {f : Machine → Machine} (kept : ∀ m, m.Fits limits → (f m).Fits limits) :
    Keeps limits (fun _ => True) (modify f : Step Unit) where
  done m a m' fits ok := by
    cases ok
    exact ⟨kept m fits, trivial⟩
  halted m h m' fits bad := by cases bad

theorem push {v : Value} (inside : v.Fits limits) : Keeps limits (fun _ => True) (Machine.push v) := by
  apply modify
  intro m fits
  exact ⟨fits.bound, List.forall_mem_cons.2 ⟨inside, fits.stack⟩, fits.root⟩

theorem pop : Keeps limits (fun v => v.Fits limits) Machine.pop where
  done m v m' fits ok := by
    unfold Machine.pop at ok
    cases listed : m.stack with
    | nil => simp [listed] at ok
    | cons top rest =>
      simp only [listed] at ok
      cases ok
      have all := fits.stack
      rw [listed] at all
      obtain ⟨first, others⟩ := List.forall_mem_cons.1 all
      exact ⟨⟨fits.bound, others, fits.root⟩, first⟩
  halted m h m' fits bad := by
    unfold Machine.pop at bad
    cases listed : m.stack with
    | nil =>
      simp only [listed] at bad
      cases bad
      exact fits
    | cons top rest => simp [listed] at bad

theorem popInt : Keeps limits (fun _ => True) Machine.popInt := by
  apply bind pop
  intro v _
  cases v with
  | int x => exact pure trivial
  | _ => exact fault _

theorem popTuple : Keeps limits (fun items => items.length ≤ tupleLimit ∧ ∀ v ∈ items, v.Fits limits)
    Machine.popTuple := by
  apply bind pop
  intro v fits
  cases fits with
  | tuple few each => exact pure ⟨few, each⟩
  | _ => exact fault _

theorem popCell : Keeps limits (fun c => c.Fits limits) Machine.popCell := by
  apply bind pop
  intro v fits
  cases fits with
  | cell fits => exact pure fits
  | _ => exact fault _

theorem popBuilder : Keeps limits (fun b => b.Fits limits) Machine.popBuilder := by
  apply bind pop
  intro v fits
  cases fits with
  | builder fits => exact pure fits
  | _ => exact fault _

theorem popSlice : Keeps limits (fun s => s.Fits limits) Machine.popSlice := by
  apply bind pop
  intro v fits
  cases fits with
  | slice fits => exact pure fits
  | _ => exact fault _

theorem counting : Keeps limits (fun _ => True) count := by
  apply modify
  intro m fits
  exact ⟨fits.bound, fits.stack, fits.root⟩

theorem blaming {i : Instr} {x : Step Unit} (h : Keeps limits (fun _ => True) x) :
    Keeps limits (fun _ => True) (Machine.blaming i x) where
  done m a m' fits ok := by
    cases one : x m with
    | ok u after =>
      simp only [Machine.blaming, one] at ok
      cases ok
      exact h.done m _ _ fits one
    | error why after => simp [Machine.blaming, one] at ok
  halted m why m' fits bad := by
    cases one : x m with
    | ok u after => simp [Machine.blaming, one] at bad
    | error first after =>
      simp only [Machine.blaming, one] at bad
      cases bad
      exact h.halted m _ _ fits one

theorem onStack {n : Nat} {f : List Value → List Value}
    (kept : ∀ stack : List Value, (∀ v ∈ stack, v.Fits limits) → ∀ v ∈ f stack, v.Fits limits) :
    Keeps limits (fun _ => True) (Machine.onStack n f) where
  done m a m' fits ok := by
    unfold Machine.onStack at ok
    split at ok
    · cases ok
      exact ⟨⟨fits.bound, kept m.stack fits.stack, fits.root⟩, trivial⟩
    · cases ok
  halted m h m' fits bad := by
    unfold Machine.onStack at bad
    split at bad
    · cases bad
    · cases bad
      exact fits

theorem rearrange {n : Nat} {f : List Value → List Value} (sub : ∀ stack, f stack ⊆ stack) :
    Keeps limits (fun _ => True) (Machine.onStack n f) := by
  apply onStack
  intro stack fits v inside
  exact fits v (sub stack inside)

theorem immediate (operands : List Int) (k : Nat) {low high : Int} (small : high ≤ tupleLimit) :
    Keeps limits (fun n => n ≤ tupleLimit) (Machine.immediate operands k low high) := by
  unfold Machine.immediate
  simp only
  split
  · exact fault _
  · apply pure
    omega

theorem popOperand {high : Nat} (small : high ≤ tupleLimit) :
    Keeps limits (fun n => n ≤ tupleLimit) (Machine.popOperand high) := by
  apply bind popInt
  intro x _
  split
  · apply pure
    omega
  · exact fault _

theorem reverse (n i : Nat) : Keeps limits (fun _ => True) (Machine.reverse n i) := by
  apply rearrange
  exact reverseSubset n i

theorem blockSwap (i j : Nat) : Keeps limits (fun _ => True) (Machine.blockSwap i j) := by
  apply rearrange
  intro stack v inside
  exact reverseSubset _ _ _ (reverseSubset _ _ _ (reverseSubset _ _ _ inside))

theorem tuple {n : Nat} (small : n ≤ tupleLimit) : Keeps limits (fun _ => True) (Machine.tuple n) := by
  apply onStack
  intro stack fits v inside
  rcases List.mem_cons.1 inside with rfl | rest
  · constructor
    · rw [List.length_reverse, List.length_take]
      omega
    · intro w member
      exact fits w (List.mem_of_mem_take (List.mem_reverse.1 member))
  · exact fits v (List.mem_of_mem_drop rest)

theorem untuple (n : Nat) : Keeps limits (fun _ => True) (Machine.untuple n) := by
  apply bind popTuple
  intro items tupled
  split
  · apply modify
    intro m fits
    constructor
    · exact fits.bound
    · intro v inside
      rcases List.mem_append.1 inside with item | rest
      · exact tupled.2 v (List.mem_reverse.1 item)
      · exact fits.stack v rest
    · exact fits.root
  · exact fault _

theorem index (k : Nat) : Keeps limits (fun _ => True) (Machine.index k) := by
  apply bind popTuple
  intro items tupled
  cases found : items[k]? with
  | none => exact fault _
  | some v => exact push (tupled.2 v (List.mem_of_getElem? found))

theorem setIndex (k : Nat) : Keeps limits (fun _ => True) (Machine.setIndex k) := by
  apply bind pop
  intro v fits
  apply bind popTuple
  intro items tupled
  unfold withMember
  split_ifs
  · apply push
    constructor
    · rw [List.length_set]
      exact tupled.1
    · intro w member
      rcases List.mem_or_eq_of_mem_set member with old | rfl
      · exact tupled.2 w old
      · exact fits
  · exact throw _

theorem store {extend : Builder → Step Builder} (room : 0 ≤ limits.bits)
    (extended : ∀ b, b.Fits limits → Keeps limits (fun b' => ∀ r ∈ b'.refs, r.Fits limits) (extend b)) :
    Keeps limits (fun _ => True) (Machine.store extend) := by
  apply bind popBuilder
  intro b fits
  apply bind (extended b fits)
  intro b' each
  apply bind get
  intro m within
  rw [within.bound]
  split
  · rename_i measured
    apply push
    constructor
    apply Cell.Fits.build _ measured.2 each
    have short := measured.1
    omega
  · exact fault _

theorem storeInt (fits : Word → Prop) [DecidablePred fits] (n : Int) (room : 0 ≤ limits.bits) :
    Keeps limits (fun _ => True) (Machine.storeInt fits n) := by
  apply store room
  intro b inside
  apply bind popInt
  intro x _
  split
  · unfold Builder.storeWord?
    split_ifs
    · exact pure inside.each
    · exact throw _
  · exact fault _

theorem storeDict (room : 0 ≤ limits.bits) : Keeps limits (fun _ => True) Machine.storeDict := by
  apply store room
  intro b inside
  apply bind pop
  intro v fits
  cases fits with
  | null => exact pure inside.each
  | cell fits => exact pure (Builder.storeRefEach (b := b.storeBits [true]) inside.each fits)
  | _ => exact fault _

theorem load {read : Slice → Option (Value × Slice)}
    (reads : ∀ s v t, s.Fits limits → read s = some (v, t) → v.Fits limits ∧ t.Fits limits) :
    Keeps limits (fun _ => True) (Machine.load read) := by
  apply bind popSlice
  intro s fits
  cases found : read s with
  | none => exact fault _
  | some pair =>
    obtain ⟨value, rest⟩ := reads s pair.1 pair.2 fits found
    apply bind (push value)
    intro _ _
    exact push (.slice rest)

end Keeps

theorem readBitsFit {n : Int} {s t : Slice} {bits : List Bool} (fits : s.Fits limits)
    (found : readBits n s = some (bits, t)) : (bits.length : Int) ≤ limits.bits ∧ t.Fits limits := by
  unfold readBits at found
  split at found
  · cases found
  · exact (fits.take found).symm

theorem readUnsignedFits {n : Int} (s : Slice) (v : Value) (t : Slice) (fits : s.Fits limits)
    (found : readUnsigned n s = some (v, t)) : v.Fits limits ∧ t.Fits limits := by
  obtain ⟨⟨bits, rest⟩, taken, made⟩ := Option.map_eq_some_iff.1 found
  cases made
  exact ⟨.int _, (readBitsFit fits taken).2⟩

theorem readSignedFits {n : Int} (s : Slice) (v : Value) (t : Slice) (fits : s.Fits limits)
    (found : readSigned n s = some (v, t)) : v.Fits limits ∧ t.Fits limits := by
  obtain ⟨⟨bits, rest⟩, taken, made⟩ := Option.map_eq_some_iff.1 found
  cases made
  exact ⟨.int _, (readBitsFit fits taken).2⟩

theorem readSliceFits {n : Int} (refs : 0 ≤ limits.refs) (s : Slice) (v : Value) (t : Slice) (fits : s.Fits limits)
    (found : readSlice n s = some (v, t)) : v.Fits limits ∧ t.Fits limits := by
  obtain ⟨⟨bits, rest⟩, taken, made⟩ := Option.map_eq_some_iff.1 found
  cases made
  obtain ⟨short, after⟩ := readBitsFit fits taken
  exact ⟨.slice (.ofCell (.build short refs nofun)), after⟩

theorem readRefFits (s : Slice) (v : Value) (t : Slice) (fits : s.Fits limits) (found : readRef s = some (v, t)) :
    v.Fits limits ∧ t.Fits limits := by
  obtain ⟨⟨c, rest⟩, taken, made⟩ := Option.map_eq_some_iff.1 found
  cases made
  obtain ⟨after, inside⟩ := fits.readRef taken
  exact ⟨.cell inside, after⟩

theorem readDictFits (s : Slice) (v : Value) (t : Slice) (fits : s.Fits limits) (found : readDict s = some (v, t)) :
    v.Fits limits ∧ t.Fits limits := by
  unfold readDict at found
  split at found
  · rename_i middle taken
    exact readRefFits middle v t (fits.take taken).1 found
  · rename_i bits middle _ taken
    cases found
    exact ⟨.null, (fits.take taken).1⟩
  · cases found

namespace Keeps

theorem simple (bits : 0 ≤ limits.bits) (refs : 0 ≤ limits.refs) (op : Opcode) (operands : List Int) :
    Keeps limits (fun _ => True) (Machine.simple op operands) := by
  have empty : Builder.empty.Fits limits := .build bits refs nofun
  cases op with
  | null | newDict => exact push .null
  | drop => exact bind pop fun _ _ => pure trivial
  | nip =>
    refine rearrange (n := 2) (f := fun stack => stack.take 1 ++ stack.drop 2) ?_
    intro stack v inside
    rcases List.mem_append.1 inside with top | rest
    · exact List.mem_of_mem_take top
    · exact List.mem_of_mem_drop rest
  | swap => exact reverse 2 0
  | rot =>
    apply rearrange
    intro stack v inside
    unfold rotate at inside
    split at inside
    · simp only [List.mem_cons] at inside ⊢
      tauto
    · exact inside
  | rotRev =>
    apply rearrange
    intro stack v inside
    unfold rotateBack at inside
    split at inside
    · simp only [List.mem_cons] at inside ⊢
      tauto
    · exact inside
  | reverse =>
    exact bind (immediate _ _ (by decide)) fun n _ => bind (immediate _ _ (by decide)) fun i _ => reverse n i
  | revX => exact bind (popOperand le_rfl) fun i _ => bind (popOperand le_rfl) fun n _ => reverse n i
  | blkSwap =>
    exact bind (immediate _ _ (by decide)) fun i _ => bind (immediate _ _ (by decide)) fun j _ => blockSwap i j
  | blkSwX => exact bind (popOperand le_rfl) fun j _ => bind (popOperand le_rfl) fun i _ => blockSwap i j
  | tuple => exact bind (immediate _ _ (by decide)) fun _ small => tuple small
  | tupleVar => exact bind (popOperand le_rfl) fun _ small => tuple small
  | pair => exact tuple (by decide)
  | untuple => exact bind (immediate _ _ (by decide)) fun n _ => untuple n
  | untupleVar => exact bind (popOperand le_rfl) fun n _ => untuple n
  | unpair => exact untuple 2
  | index => exact bind (immediate _ _ (by decide)) fun k _ => index k
  | indexVar => exact bind (popOperand (by decide)) fun k _ => index k
  | setIndex => exact bind (immediate _ _ (by decide)) fun k _ => setIndex k
  | setIndexVar => exact bind (popOperand (by decide)) fun k _ => setIndex k
  | newC => exact push (.builder empty)
  | endC => exact bind popBuilder fun _ inside => push (.cell inside)
  | stU | stI => exact storeInt _ _ bits
  | stDict => exact storeDict bits
  | stRef =>
    apply store bits
    intro b inside
    apply bind popCell
    intro c fits
    exact pure (Builder.storeRefEach inside.each fits)
  | stSlice =>
    apply store bits
    intro b inside
    apply bind popSlice
    intro s fits
    apply pure
    intro r linked
    rcases List.mem_append.1 linked with old | new
    · exact inside.ref old
    · exact fits.unreadRef new
  | stBRefR =>
    apply bind popBuilder
    intro inner fits
    apply store bits
    intro b inside
    exact pure (Builder.storeRefEach inside.each fits)
  | cToS => exact bind popCell fun _ fits => push (.slice (.ofCell fits))
  | endS =>
    apply bind popSlice
    intro s _
    split
    · exact pure trivial
    · exact fault _
  | ldU => exact load readUnsignedFits
  | ldI => exact load readSignedFits
  | ldDict => exact load readDictFits
  | ldRef => exact load readRefFits
  | ldSlice => exact load (readSliceFits refs)
  | ldRefRToS =>
    apply bind popSlice
    intro s fits
    cases found : s.ref? with
    | none => exact fault _
    | some pair =>
      obtain ⟨rest, inside⟩ := fits.readRef (t := pair.2) (c := pair.1) found
      exact bind (push (.slice rest)) fun _ _ => push (.slice (.ofCell inside))
  | pushRoot => exact bind get fun m fits => push (.cell fits.root)
  | popRoot =>
    apply bind popCell
    intro c inside
    apply modify
    intro m fits
    exact ⟨fits.bound, fits.stack, inside⟩
  | unknown code => exact fault _

end Keeps

mutual
theorem stepKeeps (bits : 0 ≤ limits.bits) (refs : 0 ≤ limits.refs) :
    (i : Instr) → Keeps limits (fun _ => True) (step i)
  | .pushInt x => by
    rw [step]
    exact .push (.int x)
  | .simple op operands => by
    rw [step]
    exact .simple bits refs op operands
  | .callRef _ _ body => by
    rw [step]
    exact runKeeps bits refs body

theorem runKeeps (bits : 0 ≤ limits.bits) (refs : 0 ≤ limits.refs) :
    (code : List Instr) → Keeps limits (fun _ => True) (run code)
  | [] => by
    rw [run]
    exact .pure trivial
  | i :: rest => by
    rw [run]
    exact .bind .counting fun _ _ => .bind (.blaming (stepKeeps bits refs i)) fun _ _ => runKeeps bits refs rest
end

def begin (m : Machine) : Machine := { m with executed := m.executed + 1 }

theorem Fits.begin {m : Machine} (fits : m.Fits limits) : m.begin.Fits limits :=
  ⟨fits.bound, fits.stack, fits.root⟩

/- The points of a run: before each instruction, within the bodies of calls, where the run halts, and its end. -/
inductive Passes : List Instr → Machine → Machine → Prop where
  | here (code : List Instr) (m : Machine) : Passes code m m
  | within {arguments results : Int} {body rest : List Instr} {m point : Machine}
      (inside : Passes body m.begin point) : Passes (.callRef arguments results body :: rest) m point
  | halt {i : Instr} {rest : List Instr} {m point : Machine} {why : Halt}
      (halted : step i m.begin = .error why point) : Passes (i :: rest) m point
  | next {i : Instr} {rest : List Instr} {m after point : Machine} (done : step i m.begin = .ok () after)
      (later : Passes rest after point) : Passes (i :: rest) m point

theorem endPassed (code : List Instr) (m : Machine) :
    (∀ m', run code m = .ok () m' → Passes code m m') ∧ ∀ h m', run code m = .error h m' → Passes code m m' := by
  induction code generalizing m with
  | nil =>
    constructor
    · intro m' ok
      rw [runNil] at ok
      cases ok
      exact .here [] m
    · intro h m' bad
      rw [runNil] at bad
      cases bad
  | cons i rest ih =>
    cases one : step i m.begin with
    | ok u after =>
      rw [runConsOk one]
      constructor
      · intro m' ok
        exact .next one ((ih after).1 m' ok)
      · intro h m' bad
        exact .next one ((ih after).2 h m' bad)
    | error why after =>
      rw [runConsError one]
      constructor
      · intro m' ok
        cases ok
      · intro h m' bad
        cases bad
        exact .halt one

/- A machine within the limits of its target is within them at every point of every run, the end of the run and the
place of an exception among them. -/
theorem capacityKept {target : Target} (bits : 0 ≤ target.cellBits) (refs : 0 ≤ target.cellRefs) {m : Machine}
    (fits : m.Fits target.cell) (code : List Instr) :
    (∀ point, Passes code m point → point.Fits target.cell) ∧
    (∀ m', run code m = .ok () m' → Passes code m m') ∧ ∀ h m', run code m = .error h m' → Passes code m m' := by
  refine ⟨?_, endPassed code m⟩
  intro point passed
  induction passed with
  | here => exact fits
  | within _ ih => exact ih fits.begin
  | halt halted => exact (stepKeeps bits refs _).halted _ _ _ fits.begin halted
  | next done _ ih => exact ih ((stepKeeps bits refs _).done _ _ _ fits.begin done).1

def crowded : Machine :=
  ⟨[.cell .empty, .cell .empty, .slice ⟨.mk [true, false] [], 1, 0⟩], .empty, ⟨8, 1⟩, 0⟩

def storeTwo : List Instr :=
  [.simple .newC [], .simple .stRef [], .callRef 2 1 [.simple .stRef []]]

theorem crowdedKept : ∃ point, run storeTwo crowded = .error (.fault .cellOverflow (some (.simple .stRef []))) point ∧
    crowded.Fits ⟨8, 1⟩ ∧ point.stack.length = 1 ∧ point.Fits ⟨8, 1⟩ := by
  have empty : Cell.empty.Fits ⟨8, 1⟩ := .build (by decide) (by decide) nofun
  have cut : Slice.Fits ⟨8, 1⟩ ⟨.mk [true, false] [], 1, 0⟩ :=
    ⟨.build (by decide) (by decide) nofun, by decide, by decide⟩
  have fits : crowded.Fits ⟨8, 1⟩ := by
    refine ⟨rfl, ?_, empty⟩
    intro v inside
    simp only [crowded, List.mem_cons, List.not_mem_nil, or_false] at inside
    rcases inside with rfl | rfl | rfl
    · exact .cell empty
    · exact .cell empty
    · exact .slice cut
  have halted : run storeTwo crowded = .error (.fault .cellOverflow (some (.simple .stRef [])))
      ⟨[.slice ⟨.mk [true, false] [], 1, 0⟩], .empty, ⟨8, 1⟩, 4⟩ := by rfl
  have kept := @capacityKept { cellBits := 8, cellRefs := 1 } (by decide) (by decide) crowded fits storeTwo
  exact ⟨_, halted, fits, rfl, kept.1 _ (kept.2.2 _ _ halted)⟩

end Machine

end CellChain
