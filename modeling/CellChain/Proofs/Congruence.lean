import Mathlib
import CellChain.Proofs.Execution
/-! Values that compare as the same cannot be told apart by running code. The comparison looks at what a slice has not
read yet, and so does every instruction: the cell that a slice reads, and how far it has come, show nowhere. Two runs
of one code on stacks that compare as the same therefore go the same way, to the same end or to the same halt. -/
namespace CellChain

namespace Cell

mutual
theorem sameIff : (c d : Cell) → (c.same d = true ↔ c = d)
  | .mk bits refs, .mk bits' refs' => by
    rw [same, Bool.and_eq_true, beq_iff_eq, sameAllIff refs refs', mk.injEq]

theorem sameAllIff : (cs ds : List Cell) → (sameAll cs ds = true ↔ cs = ds)
  | [], [] => by simp [sameAll]
  | [], _ :: _ => by simp [sameAll]
  | _ :: _, [] => by simp [sameAll]
  | c :: cs, d :: ds => by rw [sameAll, Bool.and_eq_true, sameIff c d, sameAllIff cs ds, List.cons.injEq]
end

end Cell

namespace Slice

theorem restIff {s t : Slice} : s.rest = t.rest ↔ s.bits = t.bits ∧ s.refs = t.refs := by
  rw [rest, rest, Cell.mk.injEq]

theorem bitsAfter (s : Slice) (n : Nat) : Slice.bits { s with bitPos := s.bitPos + n } = s.bits.drop n := by
  simp only [Slice.bits, List.drop_drop]

theorem refsAfter (s : Slice) : Slice.refs { s with refPos := s.refPos + 1 } = s.refs.tail := by
  simp only [Slice.refs, List.tail_drop]

theorem takeAlike {s t : Slice} (unread : s.rest = t.rest) (n : Nat) :
    Option.Rel (fun a b => a.1 = b.1 ∧ a.2.rest = b.2.rest) (s.take? n) (t.take? n) := by
  obtain ⟨bits, refs⟩ := restIff.1 unread
  unfold take?
  rw [bits]
  by_cases enough : n ≤ t.bits.length
  · rw [if_pos enough, if_pos enough]
    have after : Slice.bits { s with bitPos := s.bitPos + n } = Slice.bits { t with bitPos := t.bitPos + n } := by
      rw [bitsAfter, bitsAfter, bits]
    exact .some ⟨rfl, restIff.2 ⟨after, refs⟩⟩
  · rw [if_neg enough, if_neg enough]
    exact .none

theorem refAlike {s t : Slice} (unread : s.rest = t.rest) :
    Option.Rel (fun a b => a.1 = b.1 ∧ a.2.rest = b.2.rest) s.ref? t.ref? := by
  obtain ⟨bits, refs⟩ := restIff.1 unread
  have after : Slice.refs { s with refPos := s.refPos + 1 } = Slice.refs { t with refPos := t.refPos + 1 } := by
    rw [refsAfter, refsAfter, refs]
  unfold ref?
  rw [refs]
  cases t.refs with
  | nil => exact .none
  | cons c rest => exact .some ⟨rfl, restIff.2 ⟨bits, after⟩⟩

end Slice

theorem finishIff {b d : Builder} : b.finish = d.finish ↔ b = d := by
  rw [Builder.finish, Builder.finish, Cell.mk.injEq, Builder.mk.injEq]

namespace Value

mutual
def fresh : Value → Value
  | .int x => .int x
  | .null => .null
  | .tuple items => .tuple (freshAll items)
  | .cell c => .cell c
  | .builder b => .builder b
  | .slice s => .slice (.ofCell s.rest)

def freshAll : List Value → List Value
  | [] => []
  | v :: rest => v.fresh :: freshAll rest
end

theorem freshAllMap (items : List Value) : freshAll items = items.map fresh := by
  induction items with
  | nil => rfl
  | cons v rest ih => rw [freshAll, ih, List.map_cons]

@[simp] theorem freshTuple (items : List Value) : fresh (.tuple items) = .tuple (items.map fresh) := by
  rw [fresh, freshAllMap]

inductive Like : Value → Value → Prop where
  | int (x : Word) : Like (.int x) (.int x)
  | null : Like .null .null
  | tuple {vs ws : List Value} (each : vs.map fresh = ws.map fresh) : Like (.tuple vs) (.tuple ws)
  | cell (c : Cell) : Like (.cell c) (.cell c)
  | builder (b : Builder) : Like (.builder b) (.builder b)
  | slice {s t : Slice} (unread : s.rest = t.rest) : Like (.slice s) (.slice t)

theorem likeIff {v w : Value} : v.Like w ↔ v.fresh = w.fresh := by
  constructor
  · intro like
    cases like with
    | tuple each => rw [freshTuple, freshTuple, each]
    | slice unread => rw [fresh, fresh, unread]
    | _ => rfl
  · intro same
    cases v <;> cases w <;> simp only [fresh, freshAllMap, reduceCtorEq, int.injEq, tuple.injEq, cell.injEq,
      builder.injEq, slice.injEq, Slice.ofCell, Slice.mk.injEq, and_true] at same
    case int.int => exact same ▸ .int _
    case null.null => exact .null
    case tuple.tuple => exact .tuple same
    case cell.cell => exact same ▸ .cell _
    case builder.builder => exact same ▸ .builder _
    case slice.slice => exact .slice same

mutual
theorem sameIff : (v w : Value) → (v.same w = true ↔ v.fresh = w.fresh)
  | .tuple vs, .tuple ws => by rw [same, fresh, fresh, tuple.injEq, sameAllIff vs ws]
  | .int x, w => by cases w <;> simp [same, fresh]
  | .null, w => by cases w <;> simp [same, fresh]
  | .cell c, w => by cases w <;> simp [same, fresh, Cell.sameIff]
  | .builder b, w => by cases w <;> simp [same, fresh, Cell.sameIff, finishIff]
  | .slice s, w => by cases w <;> simp [same, fresh, Cell.sameIff, Slice.ofCell]
  | .tuple vs, .int _ | .tuple vs, .null | .tuple vs, .cell _ | .tuple vs, .builder _ | .tuple vs, .slice _ => by
    simp [same, fresh]

theorem sameAllIff : (vs ws : List Value) → (sameAll vs ws = true ↔ freshAll vs = freshAll ws)
  | [], [] => by simp [sameAll]
  | [], _ :: _ => by simp [sameAll, freshAll]
  | _ :: _, [] => by simp [sameAll, freshAll]
  | v :: vs, w :: ws => by
    rw [sameAll, Bool.and_eq_true, sameIff v w, sameAllIff vs ws, freshAll, freshAll, List.cons.injEq]
end

theorem sameEquivalence : Equivalence fun v w : Value => v.same w = true where
  refl v := (sameIff v v).2 rfl
  symm {v w} same := (sameIff w v).2 ((sameIff v w).1 same).symm
  trans {u v w} first second := (sameIff u w).2 (((sameIff u v).1 first).trans ((sameIff v w).1 second))

end Value

namespace Machine

variable {α β : Type}

structure Alike (lead : Int) (m n : Machine) : Prop where
  stack : m.stack.map Value.fresh = n.stack.map Value.fresh
  root : m.root = n.root
  limits : m.limits = n.limits
  executed : (n.executed : Int) = m.executed + lead

/- Two ends that are alike: both come to a result, or both halt in the same way, and neither has gained on the
other. -/
inductive EndAlike (lead : Int) (R : α → α → Prop) :
    EStateM.Result Halt Machine α → EStateM.Result Halt Machine α → Prop where
  | done {a b : α} {m n : Machine} (given : R a b) (alike : Alike lead m n) : EndAlike lead R (.ok a m) (.ok b n)
  | halted (why : Halt) {m n : Machine} (alike : Alike lead m n) : EndAlike lead R (.error why m) (.error why n)

def Agree (R : α → α → Prop) (x y : Step α) : Prop :=
  ∀ lead m n, Alike lead m n → EndAlike lead R (x m) (y n)

namespace Agree

theorem pure {R : α → α → Prop} {a b : α} (given : R a b) : Agree R (Pure.pure a) (Pure.pure b) := by
  intro lead m n alike
  exact .done given alike

theorem bind {R : α → α → Prop} {Q : β → β → Prop} {x y : Step α} {f g : α → Step β} (first : Agree R x y)
    (second : ∀ a b, R a b → Agree Q (f a) (g b)) : Agree Q (x >>= f) (y >>= g) := by
  intro lead m n alike
  have ends := first lead m n alike
  rw [bindRun, bindRun]
  generalize x m = one, y n = two at ends ⊢
  cases ends with
  | done given after => exact second _ _ given lead _ _ after
  | halted why after => exact .halted why after

theorem bindSame {Q : β → β → Prop} {x y : Step α} {f g : α → Step β} (first : Agree Eq x y)
    (second : ∀ a, Agree Q (f a) (g a)) : Agree Q (x >>= f) (y >>= g) := by
  apply bind first
  intro a b same
  rw [same]
  exact second b

theorem throw {R : α → α → Prop} (why : Halt) : Agree R (MonadExcept.throw why) (MonadExcept.throw why) := by
  intro lead m n alike
  exact .halted why alike

theorem fault {R : α → α → Prop} (kind : Fault) : Agree R (Machine.fault kind) (Machine.fault kind) := throw _

theorem read : Agree (fun m n => m.root = n.root ∧ m.limits = n.limits) get get := by
  intro lead m n alike
  exact .done ⟨alike.root, alike.limits⟩ alike

theorem push {v w : Value} (like : v.Like w) : Agree Eq (Machine.push v) (Machine.push w) := by
  intro lead m n alike
  have entries : (v :: m.stack).map Value.fresh = (w :: n.stack).map Value.fresh := by
    rw [List.map_cons, List.map_cons, Value.likeIff.1 like, alike.stack]
  exact .done rfl ⟨entries, alike.root, alike.limits, alike.executed⟩

theorem pop : Agree Value.Like Machine.pop Machine.pop := by
  intro lead m n alike
  have entries := alike.stack
  unfold Machine.pop
  cases first : m.stack with
  | nil =>
    cases second : n.stack with
    | nil => exact .halted _ alike
    | cons w others =>
      rw [first, second] at entries
      cases entries
  | cons v rest =>
    cases second : n.stack with
    | nil =>
      rw [first, second] at entries
      cases entries
    | cons w others =>
      rw [first, second, List.map_cons, List.map_cons, List.cons.injEq] at entries
      exact .done (Value.likeIff.2 entries.1) ⟨entries.2, alike.root, alike.limits, alike.executed⟩

theorem popInt : Agree Eq Machine.popInt Machine.popInt := by
  apply bind pop
  intro v w like
  cases like with
  | int x => exact pure rfl
  | _ => exact fault _

theorem popTuple : Agree (fun vs ws => vs.map Value.fresh = ws.map Value.fresh) Machine.popTuple Machine.popTuple := by
  apply bind pop
  intro v w like
  cases like with
  | tuple each => exact pure each
  | _ => exact fault _

theorem popCell : Agree Eq Machine.popCell Machine.popCell := by
  apply bind pop
  intro v w like
  cases like with
  | cell c => exact pure rfl
  | _ => exact fault _

theorem popBuilder : Agree Eq Machine.popBuilder Machine.popBuilder := by
  apply bind pop
  intro v w like
  cases like with
  | builder b => exact pure rfl
  | _ => exact fault _

theorem popSlice : Agree (fun s t => s.rest = t.rest) Machine.popSlice Machine.popSlice := by
  apply bind pop
  intro v w like
  cases like with
  | slice unread => exact pure unread
  | _ => exact fault _

theorem onStack {k : Nat} {f : List Value → List Value}
    (kept : ∀ s t : List Value, s.map Value.fresh = t.map Value.fresh → (f s).map Value.fresh = (f t).map Value.fresh) :
    Agree Eq (Machine.onStack k f) (Machine.onStack k f) := by
  intro lead m n alike
  have length : m.stack.length = n.stack.length := by
    rw [← List.length_map (f := Value.fresh), alike.stack, List.length_map]
  unfold Machine.onStack
  rw [length]
  by_cases enough : k ≤ n.stack.length
  · rw [if_pos enough, if_pos enough]
    exact .done rfl ⟨kept _ _ alike.stack, alike.root, alike.limits, alike.executed⟩
  · rw [if_neg enough, if_neg enough]
    exact .halted _ alike

theorem rearrange {k : Nat} {f : List Value → List Value}
    (moves : ∀ s : List Value, (f s).map Value.fresh = f (s.map Value.fresh)) :
    Agree Eq (Machine.onStack k f) (Machine.onStack k f) := by
  apply onStack
  intro s t same
  rw [moves, moves, same]

theorem immediate (operands : List Int) (k : Nat) (low high : Int) :
    Agree Eq (Machine.immediate operands k low high) (Machine.immediate operands k low high) := by
  unfold Machine.immediate
  simp only
  split
  · exact fault _
  · exact pure rfl

theorem popOperand (high : Nat) : Agree Eq (Machine.popOperand high) (Machine.popOperand high) := by
  apply bindSame popInt
  intro x
  split
  · exact pure rfl
  · exact fault _

theorem reverse (n i : Nat) : Agree Eq (Machine.reverse n i) (Machine.reverse n i) := by
  apply rearrange
  exact reverseMap Value.fresh n i

theorem blockSwap (i j : Nat) : Agree Eq (Machine.blockSwap i j) (Machine.blockSwap i j) := by
  apply rearrange
  intro s
  simp only [swapBlocks, reverseMap]

theorem tuple (n : Nat) : Agree Eq (Machine.tuple n) (Machine.tuple n) := by
  apply onStack
  intro s t same
  simp only [List.map_cons, Value.freshTuple, List.map_reverse, List.map_take, List.map_drop, same]

theorem untuple (n : Nat) : Agree Eq (Machine.untuple n) (Machine.untuple n) := by
  apply bind popTuple
  intro vs ws each
  have length : vs.length = ws.length := by
    rw [← List.length_map (f := Value.fresh), each, List.length_map]
  rw [length]
  split
  · intro lead m n alike
    have entries : (vs.reverse ++ m.stack).map Value.fresh = (ws.reverse ++ n.stack).map Value.fresh := by
      simp only [List.map_append, List.map_reverse, each, alike.stack]
    exact .done rfl ⟨entries, alike.root, alike.limits, alike.executed⟩
  · exact fault _

theorem index (k : Nat) : Agree Eq (Machine.index k) (Machine.index k) := by
  apply bind popTuple
  intro vs ws each
  have entries : vs[k]?.map Value.fresh = ws[k]?.map Value.fresh := by
    rw [← List.getElem?_map, each, List.getElem?_map]
  cases first : vs[k]? with
  | none =>
    cases second : ws[k]? with
    | none => exact fault _
    | some w =>
      rw [first, second] at entries
      cases entries
  | some v =>
    cases second : ws[k]? with
    | none =>
      rw [first, second] at entries
      cases entries
    | some w =>
      rw [first, second, Option.map_some, Option.map_some, Option.some.injEq] at entries
      exact push (Value.likeIff.2 entries)

theorem setIndex (k : Nat) : Agree Eq (Machine.setIndex k) (Machine.setIndex k) := by
  apply bind pop
  intro v w like
  apply bind popTuple
  intro vs ws each
  have length : vs.length = ws.length := by
    rw [← List.length_map (f := Value.fresh), each, List.length_map]
  unfold withMember
  rw [length]
  by_cases inside : 0 ≤ (k : Int) ∧ (k : Int) < ws.length
  · rw [if_pos inside, if_pos inside]
    have items : (vs.set (k : Int).toNat v).map Value.fresh = (ws.set (k : Int).toNat w).map Value.fresh := by
      rw [List.map_set, List.map_set, each, Value.likeIff.1 like]
    exact push (.tuple items)
  · rw [if_neg inside, if_neg inside]
    exact throw _

theorem store {extend : Builder → Step Builder} (extended : ∀ b, Agree Eq (extend b) (extend b)) :
    Agree Eq (Machine.store extend) (Machine.store extend) := by
  apply bindSame popBuilder
  intro b
  apply bindSame (extended b)
  intro b'
  apply bind read
  intro m n same
  rw [same.2]
  split
  · exact push (.builder b')
  · exact fault _

theorem storeInt (fits : Word → Prop) [DecidablePred fits] (n : Int) :
    Agree Eq (Machine.storeInt fits n) (Machine.storeInt fits n) := by
  apply store
  intro b
  apply bindSame popInt
  intro x
  split
  · cases b.storeWord? x n.toNat with
    | some b' => exact pure rfl
    | none => exact throw _
  · exact fault _

theorem storeDict : Agree Eq Machine.storeDict Machine.storeDict := by
  apply store
  intro b
  apply bind pop
  intro v w like
  cases like with
  | null => exact pure rfl
  | cell c => exact pure rfl
  | _ => exact fault _

theorem storeSlice : Agree Eq (Machine.store fun b => do return b.storeSlice (← Machine.popSlice))
    (Machine.store fun b => do return b.storeSlice (← Machine.popSlice)) := by
  apply store
  intro b
  apply bind popSlice
  intro s t unread
  obtain ⟨bits, refs⟩ := Slice.restIff.1 unread
  apply pure
  rw [Builder.storeSlice, Builder.storeSlice, bits, refs]

end Agree

def ReadsAlike (read : Slice → Option (Value × Slice)) : Prop :=
  ∀ s t, s.rest = t.rest → Option.Rel (fun a b => a.1.Like b.1 ∧ a.2.rest = b.2.rest) (read s) (read t)

theorem readBitsAlike {s t : Slice} (unread : s.rest = t.rest) (n : Int) :
    Option.Rel (fun a b => a.1 = b.1 ∧ a.2.rest = b.2.rest) (readBits n s) (readBits n t) := by
  unfold readBits
  split
  · exact .none
  · exact Slice.takeAlike unread _

theorem madeAlike (n : Int) (make : List Bool → Value) :
    ReadsAlike fun s => (readBits n s).map fun p => (make p.1, p.2) := by
  intro s t unread
  have bits := readBitsAlike unread n
  simp only
  generalize readBits n s = one, readBits n t = two at bits ⊢
  cases bits with
  | none => exact .none
  | some given => exact .some ⟨Value.likeIff.2 (congrArg (fun bits => (make bits).fresh) given.1), given.2⟩

theorem readUnsignedAlike (n : Int) : ReadsAlike (readUnsigned n) :=
  madeAlike n fun bits => .int (Slice.bitsValue bits)

theorem readSignedAlike (n : Int) : ReadsAlike (readSigned n) :=
  madeAlike n fun bits => .int (signExtend (Slice.bitsValue bits) n)

theorem readSliceAlike (n : Int) : ReadsAlike (readSlice n) :=
  madeAlike n fun bits => .slice (.ofCell (.mk bits []))

theorem readRefAlike : ReadsAlike readRef := by
  intro s t unread
  have refs := Slice.refAlike unread
  unfold readRef
  generalize s.ref? = one, t.ref? = two at refs ⊢
  cases refs with
  | none => exact .none
  | @some a b given =>
    obtain ⟨c, s'⟩ := a
    obtain ⟨d, t'⟩ := b
    obtain ⟨rfl, after⟩ := given
    exact .some ⟨.cell c, after⟩

theorem readDictAlike : ReadsAlike readDict := by
  intro s t unread
  have bits := Slice.takeAlike unread 1
  unfold readDict
  generalize s.take? 1 = one, t.take? 1 = two at bits ⊢
  cases bits with
  | none => exact .none
  | @some a b given =>
    obtain ⟨flag, s'⟩ := a
    obtain ⟨flag', t'⟩ := b
    obtain ⟨rfl, after⟩ := given
    by_cases present : flag = [true]
    · rw [present]
      exact readRefAlike s' t' after
    · simp only
      exact .some ⟨.null, after⟩

namespace Agree

theorem load {read : Slice → Option (Value × Slice)} (reads : ReadsAlike read) :
    Agree Eq (Machine.load read) (Machine.load read) := by
  apply bind popSlice
  intro s t unread
  have given := reads s t unread
  generalize read s = one, read t = two at given ⊢
  cases given with
  | none => exact fault _
  | some given =>
    apply bindSame (push given.1)
    intro _
    exact push (.slice given.2)

theorem simple (op : Opcode) (operands : List Int) :
    Agree Eq (Machine.simple op operands) (Machine.simple op operands) := by
  cases op with
  | null | newDict => exact push .null
  | drop => exact bind pop fun _ _ _ => pure rfl
  | nip =>
    apply rearrange (k := 2) (f := fun stack => stack.take 1 ++ stack.drop 2)
    intro s
    simp only [List.map_append, List.map_take, List.map_drop]
  | swap => exact reverse 2 0
  | rot =>
    apply rearrange
    intro s
    rcases s with _ | ⟨c, _ | ⟨b, _ | ⟨a, rest⟩⟩⟩ <;> rfl
  | rotRev =>
    apply rearrange
    intro s
    rcases s with _ | ⟨c, _ | ⟨b, _ | ⟨a, rest⟩⟩⟩ <;> rfl
  | reverse => exact bindSame (immediate _ _ _ _) fun n => bindSame (immediate _ _ _ _) fun i => reverse n i
  | revX => exact bindSame (popOperand 255) fun i => bindSame (popOperand 255) fun n => reverse n i
  | blkSwap => exact bindSame (immediate _ _ _ _) fun i => bindSame (immediate _ _ _ _) fun j => blockSwap i j
  | blkSwX => exact bindSame (popOperand 255) fun j => bindSame (popOperand 255) fun i => blockSwap i j
  | tuple => exact bindSame (immediate _ _ _ _) tuple
  | tupleVar => exact bindSame (popOperand 255) tuple
  | pair => exact tuple 2
  | untuple => exact bindSame (immediate _ _ _ _) untuple
  | untupleVar => exact bindSame (popOperand 255) untuple
  | unpair => exact untuple 2
  | index => exact bindSame (immediate _ _ _ _) index
  | indexVar => exact bindSame (popOperand 254) index
  | setIndex => exact bindSame (immediate _ _ _ _) setIndex
  | setIndexVar => exact bindSame (popOperand 254) setIndex
  | newC => exact push (.builder _)
  | endC => exact bindSame popBuilder fun b => push (.cell _)
  | stU | stI => exact storeInt _ _
  | stDict => exact storeDict
  | stRef => exact store fun b => bindSame popCell fun c => pure rfl
  | stSlice => exact storeSlice
  | stBRefR => exact bindSame popBuilder fun inner => store fun b => pure rfl
  | cToS => exact bindSame popCell fun c => push (.slice rfl)
  | endS =>
    apply bind popSlice
    intro s t unread
    obtain ⟨bits, refs⟩ := Slice.restIff.1 unread
    rw [Slice.isEmpty, Slice.isEmpty, bits, refs]
    split
    · exact pure rfl
    · exact fault _
  | ldU => exact load (readUnsignedAlike _)
  | ldI => exact load (readSignedAlike _)
  | ldDict => exact load readDictAlike
  | ldRef => exact load readRefAlike
  | ldSlice => exact load (readSliceAlike _)
  | ldRefRToS =>
    apply bind popSlice
    intro s t unread
    have refs := Slice.refAlike unread
    generalize s.ref? = one, t.ref? = two at refs ⊢
    cases refs with
    | none => exact fault _
    | @some a b given =>
      obtain ⟨c, s'⟩ := a
      obtain ⟨d, t'⟩ := b
      obtain ⟨rfl, after⟩ := given
      exact bindSame (push (.slice after)) fun _ => push (.slice rfl)
  | pushRoot =>
    apply bind read
    intro m n same
    rw [same.1]
    exact push (.cell _)
  | popRoot =>
    apply bindSame popCell
    intro c lead m n alike
    exact .done rfl ⟨alike.stack, rfl, alike.limits, alike.executed⟩
  | unknown code => exact fault _

theorem blaming {i : Instr} {x y : Step Unit} (h : Agree Eq x y) :
    Agree Eq (Machine.blaming i x) (Machine.blaming i y) := by
  intro lead m n alike
  have ends := h lead m n alike
  unfold Machine.blaming
  generalize x m = one, y n = two at ends ⊢
  cases ends with
  | done given after => exact .done given after
  | halted why after => exact .halted _ after

theorem counting : Agree Eq count count := by
  intro lead m n alike
  have executed := alike.executed
  have counted : ((n.executed + 1 : Nat) : Int) = (m.executed + 1 : Nat) + lead := by
    push_cast
    omega
  exact .done rfl ⟨alike.stack, alike.root, alike.limits, counted⟩

end Agree

mutual
theorem stepAgrees : (i : Instr) → Agree Eq (step i) (step i)
  | .pushInt x => by
    rw [step]
    exact .push (.int x)
  | .simple op operands => by
    rw [step]
    exact .simple op operands
  | .callRef _ _ body => by
    rw [step]
    exact runAgrees body

theorem runAgrees : (code : List Instr) → Agree Eq (run code) (run code)
  | [] => by
    rw [run]
    exact .pure rfl
  | i :: rest => by
    rw [run]
    exact .bindSame .counting fun _ => .bindSame (.blaming (stepAgrees i)) fun _ => runAgrees rest
end

structure Same (m n : Machine) : Prop where
  limits : m.limits = n.limits
  root : m.root.same n.root = true
  stack : List.Forall₂ (fun v w => v.same w = true) m.stack n.stack

theorem entriesIff {s t : List Value} :
    List.Forall₂ (fun v w => v.same w = true) s t ↔ s.map Value.fresh = t.map Value.fresh := by
  simp only [Value.sameIff]
  rw [← List.forall₂_eq_eq_eq, List.forall₂_map_left_iff, List.forall₂_map_right_iff]

theorem Same.alike {m n : Machine} (same : m.Same n) : Alike (n.executed - m.executed) m n :=
  ⟨entriesIff.1 same.stack, (Cell.sameIff _ _).1 same.root, same.limits, by omega⟩

theorem Alike.same {lead : Int} {m n : Machine} (alike : Alike lead m n) : m.Same n :=
  ⟨alike.limits, (Cell.sameIff _ _).2 alike.root, entriesIff.2 alike.stack⟩

/- Comparing as the same is a congruence: an equivalence that runs keep. Code has no jumps, so the number of
instructions that a run has begun tells where it is; both runs stand at the same place when they end. -/
theorem sameIsCongruence : (Equivalence fun v w : Value => v.same w = true) ∧
    ∀ (code : List Instr) (m n : Machine), m.Same n →
      (∃ m' n', run code m = .ok () m' ∧ run code n = .ok () n' ∧ m'.Same n' ∧
        m'.executed + n.executed = n'.executed + m.executed) ∨
      ∃ why m' n', run code m = .error why m' ∧ run code n = .error why n' ∧ m'.Same n' ∧
        m'.executed + n.executed = n'.executed + m.executed := by
  refine ⟨Value.sameEquivalence, ?_⟩
  intro code m n same
  have ends := runAgrees code _ m n same.alike
  generalize run code m = one, run code n = two at ends ⊢
  cases ends with
  | @done _ _ m' n' _ alike =>
    have executed := alike.executed
    exact .inl ⟨m', n', rfl, rfl, alike.same, by omega⟩
  | @halted why m' n' alike =>
    have executed := alike.executed
    exact .inr ⟨why, m', n', rfl, rfl, alike.same, by omega⟩

def ahead : Machine :=
  ⟨[.tuple [.slice ⟨.mk [true, true, false] [.empty], 2, 0⟩]], .empty, ⟨8, 1⟩, 4⟩

def behind : Machine :=
  ⟨[.tuple [.slice ⟨.mk [false] [.mk [true] [], .empty], 0, 1⟩]], .empty, ⟨8, 1⟩, 0⟩

def readOn : List Instr :=
  [.simple .untuple [1], .simple .ldU [1], .callRef 1 2 [.simple .ldU [2]]]

theorem readOnAlike : ∃ m' n',
    run readOn ahead = .error (.fault .cellUnderflow (some (.simple .ldU [2]))) m' ∧
    run readOn behind = .error (.fault .cellUnderflow (some (.simple .ldU [2]))) n' ∧
    m'.Same n' ∧ m'.executed = 8 ∧ n'.executed = 4 := by
  have same : ahead.Same behind := by
    exact ⟨rfl, rfl, .cons rfl .nil⟩
  have halted : run readOn ahead = .error (.fault .cellUnderflow (some (.simple .ldU [2])))
      ⟨[.int 0], .empty, ⟨8, 1⟩, 8⟩ := by rfl
  obtain ⟨m', n', done, -⟩ | ⟨why, m', n', first, second, after, begun⟩ := sameIsCongruence.2 readOn _ _ same
  · rw [halted] at done
    cases done
  · rw [halted] at first
    cases first
    have executed : 8 + 0 = n'.executed + 4 := begun
    exact ⟨_, n', halted, second, after, rfl, by omega⟩

end Machine

end CellChain
