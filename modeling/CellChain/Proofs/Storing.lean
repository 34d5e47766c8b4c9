import Mathlib
import CellChain.Proofs.Chains
import CellChain.Proofs.Rearranging
/-! Running the code that stores values. Values of the types it was emitted for fill the chain of builders
piece by piece, and nothing overflows: the position that the emission went through has room for each of them. -/
namespace CellChain

open Machine Builder

variable {target : Target} {limits : Capacity}

namespace Machine

theorem withinPart {a b : Builder} (h : withinLimits limits (a ++ b)) : withinLimits limits a := by
  obtain ⟨bits, refs⟩ := h
  simp only [appendBits, appendRefs, List.length_append] at bits refs
  exact ⟨by omega, by omega⟩

theorem storeOk {extend : Builder → Step Builder} {b b' : Builder} {s s' : List Value} {root : Cell} {n : Nat}
    (extended : extend b ⟨s, root, limits, n⟩ = .ok b' ⟨s', root, limits, n⟩) (room : withinLimits limits b') :
    store extend ⟨.builder b :: s, root, limits, n⟩ = .ok () ⟨.builder b' :: s', root, limits, n⟩ := by
  have popped : popBuilder ⟨.builder b :: s, root, limits, n⟩ = .ok b ⟨s, root, limits, n⟩ := rfl
  have seen : (get : Step Machine) ⟨s', root, limits, n⟩ = .ok ⟨s', root, limits, n⟩ ⟨s', root, limits, n⟩ := rfl
  rw [store, bindOfOk popped, bindOfOk extended, bindOfOk seen, if_pos room]
  rfl

theorem storeIntOk {fits : Word → Prop} [DecidablePred fits] {x : Word} {width : Int} {b : Builder}
    {rest : List Value} {root : Cell} {n : Nat} (ok : fits x) (narrow : width ≤ 256)
    (room : withinLimits limits (b ++ ofBits (wordBits x width.toNat))) :
    storeInt fits width ⟨.builder b :: .int x :: rest, root, limits, n⟩ =
      .ok () ⟨.builder (b ++ ofBits (wordBits x width.toNat)) :: rest, root, limits, n⟩ := by
  refine storeOk ?_ room
  have popped : popInt ⟨.int x :: rest, root, limits, n⟩ = .ok x ⟨rest, root, limits, n⟩ := rfl
  rw [bindOfOk popped, if_pos ok, storeWord?, if_pos (by omega), storeBitsAppend]
  rfl

theorem storeIntRefused {fits : Word → Prop} [DecidablePred fits] {x : Word} {width : Int} (bad : ¬fits x)
    (b : Builder) (rest : List Value) (root : Cell) (n : Nat) :
    storeInt fits width ⟨.builder b :: .int x :: rest, root, limits, n⟩ =
      .error (.fault .rangeCheck none) ⟨rest, root, limits, n⟩ := by
  have builder : popBuilder ⟨.builder b :: .int x :: rest, root, limits, n⟩ =
    .ok b ⟨.int x :: rest, root, limits, n⟩ := rfl
  have word : popInt ⟨.int x :: rest, root, limits, n⟩ = .ok x ⟨rest, root, limits, n⟩ := rfl
  rw [storeInt, store, bindOfOk builder]
  refine bindOfError ?_ _
  rw [bindOfOk word, if_neg bad]
  rfl

theorem storeIntBreaks {fits : Word → Prop} [DecidablePred fits] {x : Word} {width : Int} (ok : fits x)
    (wide : 256 < width) (b : Builder) (rest : List Value) (root : Cell) (n : Nat) :
    storeInt fits width ⟨.builder b :: .int x :: rest, root, limits, n⟩ = .error .broken ⟨rest, root, limits, n⟩ := by
  have builder : popBuilder ⟨.builder b :: .int x :: rest, root, limits, n⟩ =
    .ok b ⟨.int x :: rest, root, limits, n⟩ := rfl
  have word : popInt ⟨.int x :: rest, root, limits, n⟩ = .ok x ⟨rest, root, limits, n⟩ := rfl
  have none : b.storeWord? x width.toNat = none := by
    rw [Builder.storeWord?, if_neg (by omega)]
  rw [storeInt, store, bindOfOk builder]
  refine bindOfError ?_ _
  rw [bindOfOk word, if_pos ok, none]
  rfl

theorem storeRootOk {v : Value} {b : Builder} {rest : List Value} {root : Cell} {n : Nat} (dict : v.IsRoot)
    (room : withinLimits limits (b ++ rootWire v)) :
    storeDict ⟨.builder b :: v :: rest, root, limits, n⟩ =
      .ok () ⟨.builder (b ++ rootWire v) :: rest, root, limits, n⟩ := by
  refine storeOk ?_ room
  have popped : pop ⟨v :: rest, root, limits, n⟩ = .ok v ⟨rest, root, limits, n⟩ := rfl
  rw [bindOfOk popped]
  cases dict with
  | none => rw [storeBitsAppend]; rfl
  | cell c =>
    have written : b ++ rootWire (.cell c) = (b.storeBits [true]).storeRef c := by
      rw [storeRefAppend, storeBitsAppend, appendAssoc, rootWire]
    rw [written]
    rfl

end Machine

def Chain.stack (c : Chain) (waiting rest : List Value) : List Value :=
  .builder c.current :: (waiting ++ (c.closed.map .builder ++ rest))

structure Chain.Open (limits : Capacity) (c : Chain) (waiting : Nat) (s : Emit.Store.State) : Prop where
  holds : c.Holds limits s.position
  pending : s.pending = waiting
  builders : s.builders = c.closed.length + 1

namespace Emit

namespace Store

structure StoresLeaf (target : Target) (limits : Capacity) (t : Ty) (code : List Instr) : Prop where
  sized : ∃ size, t.leafSize? target = some size
  within : Within code
  leads : ∀ (v : Value) (b : Builder) (rest : List Value), HasType target t v →
    withinLimits limits (b ++ leafWire t v) →
      Leads limits code (.builder b :: v :: rest) (.builder (b ++ leafWire t v) :: rest)

structure Breaks (limits : Capacity) (pending : Int) (code : List Instr) : Prop where
  within : pending ≤ operandLimit → Within code
  settles : ∀ (b : Value) (waiting rest : List Value), (waiting.length : Int) = pending →
    Settles limits code (b :: (waiting ++ rest)) (.builder .empty :: (waiting ++ b :: rest))

structure Expands (limits : Capacity) (k : Nat) (code : List Instr) : Prop where
  within : (k : Int) + 1 ≤ operandLimit → Within code
  settles : ∀ (b : Value) (items rest : List Value), items.length = k →
    Settles limits code (b :: .tuple items :: rest) (b :: (items ++ rest))

theorem StoresLeaf.one {t : Ty} {o : Opcode} {operands : List Int}
    (sized : ∃ size, t.leafSize? target = some size) (carried : o.stackOperands = false)
    (stores : ∀ (v : Value) (b : Builder) (rest : List Value) (root : Cell) (n : Nat), HasType target t v →
      withinLimits limits (b ++ leafWire t v) → simple o operands ⟨.builder b :: v :: rest, root, limits, n⟩ =
        .ok () ⟨.builder (b ++ leafWire t v) :: rest, root, limits, n⟩) :
    StoresLeaf target limits t [.simple o operands] :=
  ⟨sized, withinCarried carried _, fun v b rest typed room => .one fun root n => stores v b rest root n typed room⟩

theorem arrayLeads {count : Word} {v : Value} {b : Builder} (short : count.toNat < valueCount arrayLengthBits.toNat)
    (dict : v.IsRoot) (room : withinLimits limits (b ++ ofBits (wordBits count arrayLengthBits.toNat) ++ rootWire v))
    (rest : List Value) :
    Leads limits [.simple .swap [], .simple .unpair [], .simple .rotRev [], .simple .swap [],
        .simple .stU [arrayLengthBits], .simple .stDict []]
      (.builder b :: .tuple [.int count, v] :: rest)
      (.builder (b ++ ofBits (wordBits count arrayLengthBits.toNat) ++ rootWire v) :: rest) := by
  refine .cons (.tuple [.int count, v] :: .builder b :: rest) (fun _ _ => rfl) ?_
  refine .cons (v :: .int count :: .builder b :: rest) (fun _ _ => rfl) ?_
  refine .cons (.int count :: .builder b :: v :: rest) (fun _ _ => rfl) ?_
  refine .cons (.builder b :: .int count :: v :: rest) (fun _ _ => rfl) ?_
  refine .cons _ (fun root n =>
    storeIntOk ((fitsUnsignedIff _ _).2 (.inr ⟨by decide, short⟩)) (by decide) (withinPart room)) ?_
  exact .one fun root n => storeRootOk dict room

theorem leafStores (limits : Capacity) (t : Ty) :
    Writes target (leaf t) fun _ _ code _ => StoresLeaf target limits t code := by
  cases t with
  | integer signed bits =>
    cases signed with
    | false =>
      refine .op fun _ _ => .one ⟨_, rfl⟩ rfl fun v b rest root n typed room => ?_
      cases typed with
      | unsigned least most fits =>
        have low : 0 ≤ bits := by omega
        exact storeIntOk ((fitsUnsignedIff _ _).2 (.inr ⟨low, fits⟩)) most room
    | true =>
      refine .op fun _ _ => .one ⟨_, rfl⟩ rfl fun v b rest root n typed room => ?_
      cases typed with
      | signed least most above below =>
        have low : 0 < bits := by omega
        exact storeIntOk ((fitsSignedIff _ _).2 (.inr ⟨low, above, below⟩)) most room
  | bool =>
    refine .op fun _ _ => .one ⟨_, rfl⟩ rfl fun v b rest root n typed room => ?_
    cases typed with
    | @bool x flag =>
      have fits : fitsSigned x 1 := by
        rcases flag with rfl | rfl <;> decide
      change storeInt (fitsSigned · 1) 1 _ = _
      exact storeIntOk fits (by decide) room
  | mapping key value =>
    refine .op fun _ _ => .one ⟨_, rfl⟩ rfl fun v b rest root n typed room => ?_
    cases typed with
    | mapping dict => exact storeRootOk dict room
  | bytes name | cell =>
    refine .op fun _ _ => .one ⟨_, rfl⟩ rfl fun v b rest root n typed room => ?_
    cases typed
    exact storeOk (storeRefAppend b _ ▸ rfl) room
  | address =>
    refine .op fun _ _ => .one ⟨_, rfl⟩ rfl fun v b rest root n typed room => ?_
    cases typed with
    | address size bare => exact storeOk rfl room
  | array element =>
    refine .opThen (.opThen (.opThen (.opThen (.opThen (.op ?_)))))
    intro _ _ _ _ _ _ _
    refine ⟨⟨_, rfl⟩, by decide, fun v b rest typed room => ?_⟩
    cases typed with
    | array short dict =>
      rw [leafWire, ← appendAssoc] at room ⊢
      exact arrayLeads short dict room rest
  | _ => exact .abort

theorem cellBreaks (limits : Capacity) (pending : Int) :
    Writes target (breakCell pending) fun _ _ code _ => Breaks limits pending code := by
  refine .bind (blockSwapSettles limits pending 1) fun _ _ code _ moved => .op fun _ _ _ => ⟨fun fits => ?_, ?_⟩
  · exact withinAppend.2 ⟨moved.1 fits (by decide), withinCarried rfl _⟩
  · intro b waiting rest size
    exact (moved.2 [b] waiting rest rfl size).append (.one rfl fun _ _ => rfl)

theorem tupleExpands (limits : Capacity) (k : Nat) :
    Writes target (expand k) fun _ _ code _ => Expands limits k code := by
  refine .bind (swapSettles limits) fun _ _ first _ swapped => ?_
  refine .bind (untupleLeads limits k) fun _ _ second _ spread => ?_
  have last : (if 2 ≤ k + 1 then reverse (k + 1) 0 else pure ()) = arrange (k + 1) := by
    simp only [arrange, Nat.cast_add, Nat.cast_one]
  rw [last]
  refine (arrangeSettles limits (k + 1)).mono fun _ _ third _ turned _ _ => ⟨fun fits => ?_, ?_⟩
  · exact withinAppend.2 ⟨swapped.1, withinAppend.2 ⟨spread.1, turned.1 (by simpa using fits)⟩⟩
  · intro b items rest size
    refine (swapped.2 b _ rest).append (.append (.ofLeads spread.1 (spread.2 items (b :: rest) size)) ?_)
    have reversed := turned.2 (items.reverse ++ [b]) rest (by simp [size])
    simpa using reversed

/- Code that stores values of `types`: it fills the chain with their pieces, marked as their leaves were placed.
Its operands stay small as long as the values that can wait at once are few. -/
structure Stores (target : Target) (limits : Capacity) (types : List Ty) (marks : List Bool) (s s' : State)
    (code : List Instr) : Prop where
  placed : s.position.Placed marks s'.position
  count : marks.length = (Ty.sizesAll target types).length
  pending : s'.pending = s.pending - types.length
  within : types.length ≤ s.pending → s.pending - types.length + Ty.slotsAll types + 1 ≤ operandLimit → Within code
  runs : ∀ (vs : List Value) (c : Chain) (waiting rest : List Value), HaveTypes target types vs →
    c.Open limits (vs.length + waiting.length) s →
    (c.fill (marks.zip (wiresAll types vs))).Open limits waiting.length s' ∧
    Settles limits code (c.stack (vs ++ waiting) rest) ((c.fill (marks.zip (wiresAll types vs))).stack waiting rest)

namespace Stores

theorem nil (s : State) : Stores target limits [] [] s s [] := by
  refine ⟨.nil _, rfl, by simp, fun _ _ => by decide, ?_⟩
  intro vs c waiting rest typed opened
  cases typed
  exact ⟨by simpa [Chain.fill] using opened, .nil limits _⟩

theorem cons {t : Ty} {types : List Ty} {marks more : List Bool} {s s' s'' : State} {a b : List Instr}
    (first : Stores target limits [t] marks s s' a) (second : Stores target limits types more s' s'' b) :
    Stores target limits (t :: types) (marks ++ more) s s'' (a ++ b) := by
  have left := first.pending
  have last := second.pending
  simp only [List.length_cons, List.length_nil] at left
  refine ⟨first.placed.append second.placed, ?_, ?_, ?_, ?_⟩
  · simp [first.count, second.count, Ty.sizesAll]
  · simp only [List.length_cons]
    omega
  · intro enough small
    have few := Ty.lengthLeSlots types
    simp only [List.length_cons, Ty.slotsAll] at enough small
    refine withinAppend.2 ⟨first.within ?_ ?_, second.within ?_ ?_⟩
    · simp only [List.length_cons, List.length_nil]; omega
    · simp only [List.length_cons, List.length_nil, Ty.slotsAll]; omega
    · omega
    · omega
  · intro vs c waiting rest typed opened
    cases typed with
    | @cons _ _ v vs one others =>
      have ready : c.Open limits ([v].length + (vs ++ waiting).length) s := by
        simpa [Nat.add_assoc, Nat.add_comm, Nat.add_left_comm] using opened
      obtain ⟨middle, stored⟩ := first.runs [v] c (vs ++ waiting) rest (.cons one .nil) ready
      obtain ⟨final, finished⟩ := second.runs vs _ waiting rest others (by simpa using middle)
      rw [zipWires one first.count, Chain.fillAppend]
      exact ⟨final, stored.append finished⟩

end Stores

theorem groupStores {t : Ty} {types : List Ty} {marks : List Bool} {s s' : State} {a b : List Instr}
    (group : t.parts? = some types)
    (spread : Expands limits types.length a)
    (members : Stores target limits types marks { s with pending := s.pending + (types.length - 1) } s' b) :
    Stores target limits [t] marks s s' (a ++ b) := by
  have left := members.pending
  have sizes : Ty.sizesAll target [t] = Ty.sizesAll target types := by
    simp [Ty.sizesAll, Ty.sizesGroup group]
  refine ⟨members.placed, by rw [sizes, members.count], ?_, ?_, ?_⟩
  · simp only [List.length_cons, List.length_nil] at left ⊢
    omega
  · intro enough small
    have few := Ty.lengthLeSlots types
    simp only [List.length_cons, List.length_nil, Ty.slotsAll, Ty.slotsGroup group] at enough small
    refine withinAppend.2 ⟨spread.within (by omega), members.within ?_ ?_⟩
    · simp only; omega
    · simp only; omega
  · intro vs c waiting rest typed opened
    cases typed with
    | cons one none =>
      cases none
      obtain ⟨items, rfl, inner⟩ := one.members group
      have size := inner.length
      have waits := opened.pending
      have ready : c.Open limits (items.length + waiting.length)
          { s with pending := s.pending + (types.length - 1) } := by
        refine ⟨opened.holds, ?_, opened.builders⟩
        simp only [List.length_cons, List.length_nil] at waits ⊢
        omega
      obtain ⟨final, stored⟩ := members.runs items c waiting rest inner ready
      have wires : wiresAll [t] [.tuple items] = wiresAll types items := by
        simp [wiresAll, wiresGroup group]
      rw [wires]
      refine ⟨final, .append (spread.settles _ items _ size) ?_⟩
      simpa [Chain.stack] using stored

theorem singleStores {t : Ty} {s : State} {q : Position} {opened : Bool} {size : Int × Int} {a b : List Instr}
    (single : t.parts? = none) (found : t.leafSize? target = some size)
    (next : s.position.next = .ok (opened, q)) (places : s.position.Places opened size q)
    (broken : if opened then Breaks limits s.pending a else a = []) (written : StoresLeaf target limits t b) :
    Stores target limits [t] [opened] s
      ⟨q, s.pending - 1, if opened then s.builders + 1 else s.builders⟩ (a ++ b) := by
  refine ⟨.cons next (.nil q), ?_, rfl, ?_, ?_⟩
  · simp [Ty.sizesAll, Ty.sizesSingle single, found]
  · intro enough small
    refine withinAppend.2 ⟨?_, written.within⟩
    have own := Ty.slotsPositive t
    simp only [List.length_cons, List.length_nil, Ty.slotsAll] at enough small
    cases opened with
    | false =>
      simp only [Bool.false_eq_true, if_false] at broken
      rw [broken]
      decide
    | true => exact broken.within (by omega)
  · intro vs c waiting rest typed ready
    cases typed with
    | @cons _ _ v _ one none =>
      cases none
      obtain ⟨size', found', sized⟩ := leafSized single one
      cases found.symm.trans found'
      have filled := ready.holds.put places sized
      have room := filled.within
      have wires : [opened].zip (wiresAll [t] [v]) = [(opened, leafWire t v)] := by
        simp [wiresAll, wiresSingle single]
      rw [wires]
      change Chain.Open limits (c.put (opened, leafWire t v)) _ _ ∧
        Settles limits _ _ (Chain.stack (c.put (opened, leafWire t v)) _ _)
      have waits := ready.pending
      have builders := ready.builders
      simp only [List.length_cons, List.length_nil] at waits
      cases opened with
      | false =>
        simp only [Bool.false_eq_true, if_false] at broken
        subst broken
        refine ⟨⟨filled, by simp only; omega, builders⟩, .ofLeads written.within (written.leads v _ _ one room)⟩
      | true =>
        refine ⟨⟨filled, by simp only; omega, ?_⟩, .append (broken.settles _ (v :: waiting) _ ?_)
          (.ofLeads written.within (written.leads v .empty _ one room))⟩
        · simp only [Chain.put, if_true, List.length_cons]
          omega
        · simp only [List.length_cons]
          omega

theorem valuesStore (target : Target) (limits : Capacity) :
    (∀ t s more, s.position.sizes = t.sizes target ++ more →
      Writes target (value t s) fun _ s' code _ => ∃ marks, Stores target limits [t] marks s s' code) ∧
    ∀ types s more, s.position.sizes = Ty.sizesAll target types ++ more →
      Writes target (values types s) fun _ s' code _ => ∃ marks, Stores target limits types marks s s' code := by
  apply Ty.groupInduction
  · intro t single s more listed
    rw [valueSingle single]
    refine .bind (Q := fun _ p code _ => s.position.next = .ok p ∧ code = []) (.lift fun p ok _ => ⟨ok, rfl⟩) ?_
    rintro _ ⟨opened, q⟩ _ _ ⟨next, rfl⟩
    obtain ⟨size, places⟩ := Position.nextPlaces next
    refine .bind (Q := fun _ _ code _ => if opened then Breaks limits s.pending code else code = []) ?_ ?_
    · cases opened with
      | false => exact .pure fun _ => rfl
      | true => exact cellBreaks limits s.pending
    · intro _ _ a _ broken
      refine .bind (leafStores limits t) fun _ _ b _ written => .pure fun _ _ _ _ => ⟨[opened], ?_⟩
      have found : t.leafSize? target = some size := by
        obtain ⟨size', found⟩ := written.sized
        rw [places.sizes, Ty.sizesSingle single, found] at listed
        rw [found, (List.cons.inj listed).1]
      rw [List.nil_append, List.append_nil]
      exact singleStores single found next places broken written
  · intro t types group ih s more listed
    rw [valueGroup group]
    refine .bind (tupleExpands limits types.length) fun _ _ a _ spread => ?_
    rw [Ty.sizesGroup group] at listed
    refine (ih { s with pending := s.pending + (types.length - 1) } more listed).mono ?_
    rintro _ s' b _ ⟨marks, members⟩ _
    exact ⟨marks, groupStores group spread members⟩
  · intro s more _
    simp only [values]
    exact .pure fun _ => ⟨[], .nil s⟩
  · intro t rest one others s more listed
    simp only [values]
    rw [Ty.sizesAll, List.append_assoc] at listed
    refine .bind (one s _ listed) ?_
    rintro _ s' a _ ⟨marks, first⟩
    have follow : s'.position.sizes = Ty.sizesAll target rest ++ more := by
      have counted := first.count
      rw [first.placed.sizes, listed, counted]
      simp [Ty.sizesAll]
    refine (others s' more follow).mono ?_
    rintro _ s'' b _ ⟨marks', second⟩ _
    exact ⟨marks ++ marks', first.cons second⟩

theorem foldLinks (limits : Capacity) (n : Nat) : Writes target (fold n) fun _ _ code _ => Within code ∧
    ∀ (c : Chain) (rest : List Value), c.closed.length = n → (∀ b ∈ c.closed, b.Roomy limits) →
      Leads limits code (c.stack [] rest) (.builder c.link :: rest) := by
  induction n with
  | zero =>
    refine .pure fun _ => ⟨by decide, ?_⟩
    rintro ⟨current, closed⟩ rest none _
    cases List.eq_nil_of_length_eq_zero none
    exact .nil limits _
  | succ n ih =>
    refine .opThen (ih.mono ?_)
    rintro _ _ code _ ⟨small, links⟩ d
    refine ⟨withinAppend.2 ⟨withinCarried rfl [], small⟩, ?_⟩
    rintro ⟨current, closed⟩ rest count roomy
    cases closed with
    | nil => cases count
    | cons outer others =>
      have room : withinLimits limits (outer.storeRef current.finish) := by
        have free := roomy outer (List.mem_cons_self ..)
        refine ⟨.inr free.bits, ?_⟩
        have refs := free.refs
        simpa [storeRef] using refs
      refine .cons (.builder (outer.storeRef current.finish) :: (others.map .builder ++ rest)) (fun root k => ?_) ?_
      · have popped : popBuilder ⟨Chain.stack ⟨current, outer :: others⟩ [] rest, root, limits, k⟩ =
            .ok current ⟨.builder outer :: (others.map .builder ++ rest), root, limits, k⟩ := rfl
        simp only [simple]
        rw [bindOfOk popped]
        exact storeOk rfl room
      · exact links ⟨outer.storeRef current.finish, others⟩ rest (by simpa using count)
          fun b mem => roomy b (List.mem_cons_of_mem _ mem)

end Store

structure Stored (target : Target) (limits : Capacity) (types : List Ty) (p : Position) (marks : List Bool)
    (code : List Instr) : Prop where
  placed : ∃ q, p.Placed marks q ∧ q.done = true
  within : (Ty.slotsAll types : Int) + 1 ≤ operandLimit → Within code
  settles : ∀ (vs : List Value) (b : Builder) (rest : List Value), HaveTypes target types vs →
    Chain.Holds limits ⟨b, []⟩ p → Settles limits code (.builder b :: (vs ++ rest))
      (.builder (b ++ tape (marks.zip (wiresAll types vs)) .empty) :: rest)

theorem storeValuesStored (limits : Capacity) {types : List Ty} {p : Position}
    (listed : p.sizes = Ty.sizesAll target types) :
    Writes target (storeValues types p) fun _ _ code _ => ∃ marks, Stored target limits types p marks code := by
  refine .bind (Q := fun _ _ code _ => code = []) (.depth fun _ => rfl) ?_
  rintro _ before _ _ rfl
  refine .bind (Q := fun _ _ code _ => code = []) (.check fun _ _ => rfl) ?_
  rintro _ _ _ _ rfl
  refine .bind ((Store.valuesStore target limits).2 types _ [] (by simpa using listed)) ?_
  rintro _ s a _ ⟨marks, stores⟩
  refine .bind (Q := fun _ _ code _ => s.position.done = true ∧ code = []) (.check fun h _ => ⟨h, rfl⟩) ?_
  rintro _ _ _ _ ⟨done, rfl⟩
  refine .bind (Q := fun _ _ code _ => code = []) (.check fun _ _ => rfl) ?_
  rintro _ _ _ _ rfl
  refine .bind (Store.foldLinks limits (s.builders - 1).toNat) fun _ _ b _ linked => ?_
  refine .bind (Q := fun _ _ code _ => code = []) (.ensureDepth rfl) ?_
  rintro _ _ _ _ rfl
  refine .pure fun _ _ _ _ _ _ _ _ => ⟨marks, ⟨s.position, stores.placed, done⟩, ?_, ?_⟩
  · intro small
    simp only [List.nil_append, List.append_nil]
    refine withinAppend.2 ⟨stores.within le_rfl ?_, linked.1⟩
    simp only
    omega
  · intro vs b rest typed holds
    simp only [List.nil_append, List.append_nil]
    have opened : Chain.Open limits ⟨b, []⟩ (vs.length + 0) ⟨p, types.length, 1⟩ :=
      ⟨holds, by simp [typed.length], rfl⟩
    obtain ⟨final, filled⟩ := stores.runs vs ⟨b, []⟩ [] rest typed opened
    have count := final.builders
    have links := linked.2 _ rest (by omega) final.holds.closed
    rw [Chain.linkFill] at links
    refine .append ?_ (.ofLeads linked.1 links)
    simpa [Chain.stack] using filled

end Emit

end CellChain
