import Mathlib
import CellChain.Proofs.OwnEntries
/-! What holds of emitted code because it holds of its parts. A law that survives the joining of code, and that
the operations with counts obey, is obeyed by everything that loads, stores or pushes defaults. -/
namespace CellChain

def Opcode.counts : Opcode → Bool
  | .reverse | .blkSwap | .tuple | .untuple | .index | .setIndex => true
  | op => op.stackOperands

theorem Opcode.carriedOfPlain {o : Opcode} (plain : o.counts = false) : o.stackOperands = false := by
  cases o <;> cases plain <;> rfl

namespace Emit

variable {α β : Type} {target : Target} {P : Int → List Instr → Int → Prop}

def Obeys (target : Target) (P : Int → List Instr → Int → Prop) (x : Emit α) : Prop :=
  Writes target x fun d _ code d' => P d code d'

theorem Obeys.checkThen {condition : Prop} [Decidable condition] {construct : String} {cause : Abort.Cause}
    {f : Unit → Emit β} (h : condition → Obeys target P (f ())) :
    Obeys target P (Emit.check condition construct cause >>= f) := by
  refine Writes.bind (Q := fun d _ code m => condition ∧ code = [] ∧ m = d) (.check fun holds d => ⟨holds, rfl, rfl⟩) ?_
  rintro d _ _ _ ⟨holds, rfl, rfl⟩
  refine Writes.mono (h holds) ?_
  rintro _ b code d' obeyed rfl
  exact obeyed

structure Composes (P : Int → List Instr → Int → Prop) : Prop where
  nothing : ∀ d, P d [] d
  joined : ∀ {d m d' : Int} {a b : List Instr}, P d a m → P m b d' → P d (a ++ b) d'
  literal : ∀ (x : Word) (d : Int), P d [.pushInt x] (d + 1)
  plain : ∀ {o : Opcode} {operands : List Int} {pops pushes d : Int}, o.counts = false →
    Instr.effect? (.simple o operands) = some (pops, pushes) → pops ≤ d →
      P d [.simple o operands] (d + (pushes - pops))
  called : ∀ {d d' arguments results : Int} {body : List Instr}, d' = d - arguments + results →
    needOf body ≤ arguments → P d body d' → P d [.callRef arguments results body] d'

namespace Composes

variable (law : Composes P)

include law

theorem pure (a : α) : Obeys target P (Pure.pure a) := Writes.pure law.nothing

theorem after {x : Emit α} {a : List Instr} {d m : Int} (first : P d a m) (second : Obeys target P x) :
    Writes target x fun before _ code d' => before = m → P d (a ++ code) d' := by
  refine Writes.mono second ?_
  rintro _ _ code d' rest rfl
  exact law.joined first rest

theorem bind {x : Emit α} {f : α → Emit β} (first : Obeys target P x) (second : ∀ a, Obeys target P (f a)) :
    Obeys target P (x >>= f) :=
  Writes.bind first fun _ a _ _ one => law.after one (second a)

theorem bindResult {x : Emit α} {f : α → Emit β} {Q : β → Prop} (first : Obeys target P x)
    (second : ∀ a, Writes target (f a) fun d b code d' => Q b ∧ P d code d') :
    Writes target (x >>= f) fun d b code d' => Q b ∧ P d code d' := by
  refine Writes.bind first fun d a code m one => (second a).mono ?_
  rintro _ b code' d' ⟨holds, two⟩ rfl
  exact ⟨holds, law.joined one two⟩

theorem op {o : Opcode} {operands : List Int} (plain : o.counts = false) : Obeys target P (Emit.op o operands) :=
  Writes.instr fun _ _ _ effect enough => law.plain plain effect enough

theorem pushInt (x : Word) : Obeys target P (Emit.pushInt x) := by
  refine Writes.instr fun d pops pushes effect _ => ?_
  cases effect
  exact law.literal x d

theorem check {condition : Prop} [Decidable condition] {construct : String} {cause : Abort.Cause} :
    Obeys target P (Emit.check condition construct cause) :=
  Writes.check fun _ => law.nothing

theorem ensureDepth {expected : Int} {construct : String} : Obeys target P (Emit.ensureDepth expected construct) :=
  Writes.ensureDepth (law.nothing expected)

theorem lift {x : Except Abort α} : Obeys target P (Emit.lift x) := Writes.lift fun _ _ => law.nothing

theorem depth : Obeys target P Emit.depth := Writes.depth law.nothing

theorem readTarget : Obeys target P Emit.target := Writes.readTarget law.nothing

omit law in
theorem abort {construct : String} {cause : Abort.Cause} : Obeys target P (Emit.abort construct cause : Emit α) :=
  Writes.abort

theorem when {c : Bool} {x : Emit Unit} (h : Obeys target P x) : Obeys target P (if c then x else Pure.pure ()) := by
  cases c with
  | false => exact law.pure ()
  | true => exact h

theorem call {x : Emit α} {arguments results : Int} {Q : α → Int → Prop} (body : Obeys target P x)
    (own : Stays target arguments x Q) : Obeys target P (Emit.called arguments results x) := by
  refine Writes.called (Writes.and body own) ?_
  rintro d a code d' balanced ⟨obeyed, _, need, -⟩
  exact law.called balanced need obeyed

theorem loadLeaf (t : Ty) : Obeys target P (Load.leaf t) := by
  cases t with
  | integer signed bits => cases signed <;> exact law.op rfl
  | bool | mapping | bytes | cell => exact law.op rfl
  | address => exact law.bind law.readTarget fun _ => law.op rfl
  | array element =>
    exact law.bind (law.op rfl) fun _ => law.bind (law.op rfl) fun _ => law.bind (law.op rfl) fun _ =>
      law.bind (law.op rfl) fun _ => law.op rfl
  | struct | named | tuple | other => exact abort

theorem storeLeaf (t : Ty) : Obeys target P (Store.leaf t) := by
  cases t with
  | integer signed bits => cases signed <;> exact law.op rfl
  | bool | mapping | bytes | cell | address => exact law.op rfl
  | array element =>
    exact law.bind (law.op rfl) fun _ => law.bind (law.op rfl) fun _ => law.bind (law.op rfl) fun _ =>
      law.bind (law.op rfl) fun _ => law.bind (law.op rfl) fun _ => law.op rfl
  | struct | named | tuple | other => exact abort

theorem fold (n : Nat) : Obeys target P (Store.fold n) := by
  induction n with
  | zero => exact law.pure ()
  | succ n ih => exact law.bind (law.op rfl) fun _ => ih

theorem zeroAddress : Obeys target P Emit.zeroAddress :=
  law.bind law.readTarget fun _ => law.bind (law.pushInt _) fun _ => law.bind (law.op rfl) fun _ =>
    law.bind (law.op rfl) fun _ => law.bind (law.pushInt _) fun _ => law.bind (law.op rfl) fun _ =>
      law.bind (law.op rfl) fun _ => law.bind (law.op rfl) fun _ => law.op rfl

end Composes

structure ReadLaw (target : Target) (P : Int → List Instr → Int → Prop) : Prop extends Composes P where
  tuple : ∀ k, Obeys target P (Emit.tuple k)
  group : ∀ k, Obeys target P (Load.group k)

namespace ReadLaw

variable (law : ReadLaw target P)

include law

theorem load : (∀ t p, Obeys target P (Load.value t p)) ∧ ∀ types p, Obeys target P (Load.values types p) := by
  apply Ty.groupInduction
  · intro t single p
    rw [Load.valueSingle single]
    refine law.bind law.lift fun q => law.bind (law.when ?_) fun _ => law.bind (law.loadLeaf t) fun _ => law.pure _
    exact law.bind (law.op rfl) fun _ => law.op rfl
  · intro t types parts ih p
    rw [Load.valueGroup parts]
    exact law.bind (ih p) fun _ => law.bind (law.group _) fun _ => law.pure _
  · intro p
    simp only [Load.values]
    exact law.pure p
  · intro t rest head tail p
    simp only [Load.values]
    exact law.bind (head p) fun q => tail q

theorem loadValues (types : List Ty) (p : Position) : Obeys target P (Emit.loadValues types p) :=
  law.bind law.depth fun _ => law.bind law.check fun _ => law.bind (law.load.2 types p) fun _ =>
    law.bind law.check fun _ => law.bind law.ensureDepth fun _ => law.pure _

theorem pushDefault : (∀ t, Obeys target P (Emit.pushDefault t)) ∧
    ∀ types, Obeys target P (Emit.pushDefaults types) := by
  apply Ty.groupInduction
  · intro t single
    rw [Emit.pushDefault.eq_def]
    refine law.bind law.depth fun _ => ?_
    cases t with
    | struct | tuple => cases single
    | integer | bool => exact law.bind (law.pushInt _) fun _ => law.ensureDepth
    | mapping => exact law.bind (law.op rfl) fun _ => law.ensureDepth
    | array =>
      refine law.bind ?_ fun _ => law.ensureDepth
      exact law.bind (law.pushInt _) fun _ => law.bind (law.op rfl) fun _ => law.op rfl
    | bytes | cell => exact law.bind (law.bind (law.op rfl) fun _ => law.op rfl) fun _ => law.ensureDepth
    | address => exact law.bind law.zeroAddress fun _ => law.ensureDepth
    | named | other => exact law.bind Composes.abort fun _ => law.ensureDepth
  · intro t types parts ih
    rw [Emit.pushDefault.eq_def]
    refine law.bind law.depth fun _ => ?_
    cases t <;> cases parts
    · exact law.bind ih fun _ => law.bind (law.tuple _) fun _ => law.ensureDepth
    · exact law.bind ih fun _ => law.bind (law.tuple _) fun _ => law.ensureDepth
  · simp only [Emit.pushDefaults]
    exact law.pure ()
  · intro t rest head tail
    simp only [Emit.pushDefaults]
    exact law.bind head fun _ => tail

theorem ofSlice (r : Record) : Obeys target P r.ofSlice :=
  law.bind law.depth fun _ => law.bind law.readTarget fun _ => law.bind law.lift fun _ =>
    law.bind (law.loadValues _ _) fun _ => law.bind (law.op rfl) fun _ => law.bind (law.tuple _) fun _ =>
      law.ensureDepth

theorem recordDefault (r : Record) (asBuilder : Bool) (builds : asBuilder = true → Obeys target P r.toBuilder) :
    Obeys target P (r.default asBuilder) := by
  refine law.bind law.depth fun _ => law.bind (law.pushDefault.2 _) fun _ => law.bind (law.tuple _) fun _ => ?_
  cases asBuilder with
  | false => exact law.ensureDepth
  | true => exact law.bind (builds rfl) fun _ => law.ensureDepth

end ReadLaw

structure WriteLaw (target : Target) (P : Int → List Instr → Int → Prop) : Prop extends Composes P where
  untuple : ∀ k, Obeys target P (Emit.untuple k)
  reverse : ∀ n, Obeys target P (Emit.reverse n 0)
  blockSwap : ∀ i, 0 ≤ i → Obeys target P (Emit.blockSwap i 1)

namespace WriteLaw

variable (law : WriteLaw target P)

include law

theorem arrange (n : Nat) : Obeys target P (Emit.arrange n) := by
  unfold Emit.arrange
  split
  · exact law.reverse n
  · exact law.pure ()

theorem expand (k : Nat) : Obeys target P (Store.expand k) := by
  refine law.bind (law.op rfl) fun _ => law.bind (law.untuple k) fun _ => ?_
  split
  · exact law.reverse _
  · exact law.pure ()

theorem store :
    (∀ (t : Ty) (s : Store.State), 1 ≤ s.pending → Writes target (Store.value t s) fun d s' code d' =>
      s'.pending = s.pending - 1 ∧ P d code d') ∧
    ∀ (types : List Ty) (s : Store.State), (types.length : Int) ≤ s.pending →
      Writes target (Store.values types s) fun d s' code d' =>
        s'.pending = s.pending - types.length ∧ P d code d' := by
  apply Ty.groupInduction
  · intro t single s waiting
    rw [Store.valueSingle single]
    refine law.bindResult law.lift fun q => law.bindResult (law.when ?_) fun _ => law.bindResult (law.storeLeaf t)
      fun _ => .pure fun d => ⟨rfl, law.nothing d⟩
    -- The value to be stored is among those that wait, so the count of the others is not negative.
    exact law.bind (law.blockSwap _ (by omega)) fun _ => law.op rfl
  · intro t types parts ih s waiting
    rw [Store.valueGroup parts]
    refine law.bindResult (law.expand _) fun _ => (ih _ (by simp only; omega)).mono ?_
    rintro _ s' code d' ⟨left, stored⟩
    exact ⟨by simp only at left; omega, stored⟩
  · intro s _
    simp only [Store.values]
    exact .pure fun d => ⟨by simp, law.nothing d⟩
  · intro t rest head tail s waiting
    simp only [Store.values, List.length_cons] at waiting ⊢
    refine .bind (head s (by omega)) ?_
    rintro _ s' a _ ⟨left, stored⟩
    refine (tail s' (by omega)).mono ?_
    rintro _ s'' b d' ⟨last, others⟩ rfl
    exact ⟨by omega, law.joined stored others⟩

theorem storeValues (types : List Ty) (p : Position) : Obeys target P (Emit.storeValues types p) := by
  refine law.bind law.depth fun _ => law.bind law.check fun _ => ?_
  refine Writes.bind (law.store.2 types _ le_rfl) fun _ _ _ _ stored => law.after stored.2 ?_
  exact law.bind law.check fun _ => law.bind law.check fun _ => law.bind (law.fold _) fun _ =>
    law.bind law.ensureDepth fun _ => law.pure _

theorem conversion (r : Record) (limits : Target) : Obeys target P (r.conversion limits) :=
  law.bind (law.untuple _) fun _ => law.bind (law.arrange _) fun _ => law.bind (law.op rfl) fun _ =>
    law.bind law.lift fun _ => law.storeValues _ _

theorem toBuilder (r : Record) : Obeys target P r.toBuilder := by
  rw [Record.toBuilderConversion]
  exact law.bind law.depth fun _ => law.bind law.readTarget fun limits =>
    law.bind (law.call (law.conversion r limits) (conversionStays r limits)) fun _ => law.ensureDepth

end WriteLaw

end Emit

end CellChain
