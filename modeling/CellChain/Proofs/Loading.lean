import Mathlib
import CellChain.Proofs.Chains
import CellChain.Proofs.Rearranging
/-! Running the code that loads values. From a slice whose unread part begins with a chain of pieces it takes
the values that these were written from, and leaves what follows. -/
namespace CellChain

open Machine Builder

variable {target : Target} {limits : Capacity}

namespace Machine

theorem loadOk {read : Slice → Option (Value × Slice)} {s t : Slice} {v : Value} {rest : List Value} {root : Cell}
    {n : Nat} (found : read s = some (v, t)) :
    load read ⟨.slice s :: rest, root, limits, n⟩ = .ok () ⟨.slice t :: v :: rest, root, limits, n⟩ := by
  rw [load, bindOfOk (popSliceOk ..), found]
  rfl

theorem readBitsUnread {s : Slice} {bits : List Bool} {w : Builder} {n : Int} (size : (bits.length : Int) = n)
    (front : s.unread = ofBits bits ++ w) : ∃ t, readBits n s = some (bits, t) ∧ t.unread = w := by
  obtain ⟨t, taken, after⟩ := Slice.takeUnread front
  refine ⟨t, ?_, after⟩
  have same : n.toNat = bits.length := by omega
  rw [readBits, if_neg (by omega), same, taken]

theorem readUnsignedUnread {s : Slice} {x : Word} {n : Int} {w : Builder} (least : 0 ≤ n) (most : n ≤ 256)
    (fits : x.toNat < valueCount n.toNat) (front : s.unread = ofBits (wordBits x n.toNat) ++ w) :
    ∃ t, readUnsigned n s = some (.int x, t) ∧ t.unread = w := by
  obtain ⟨t, taken, after⟩ := readBitsUnread (n := n) (by rw [wordBitsLength]; omega) front
  refine ⟨t, ?_, after⟩
  have again : Slice.bitsValue (wordBits x n.toNat) = x := readsUnsigned (by omega) fits
  simp only [readUnsigned, taken, Option.map_some, again]

theorem readSignedUnread {s : Slice} {x : Word} {n : Int} {w : Builder} (least : 1 ≤ n) (most : n ≤ 256)
    (above : -(valueCount (n.toNat - 1) : Int) ≤ x.toInt) (below : x.toInt < valueCount (n.toNat - 1))
    (front : s.unread = ofBits (wordBits x n.toNat) ++ w) :
    ∃ t, readSigned n s = some (.int x, t) ∧ t.unread = w := by
  obtain ⟨t, taken, after⟩ := readBitsUnread (n := n) (by rw [wordBitsLength]; omega) front
  refine ⟨t, ?_, after⟩
  have again := readsSigned (x := x) (n := n.toNat) (by omega) (by omega) above below
  rw [Int.toNat_of_nonneg (by omega)] at again
  simp only [readSigned, taken, Option.map_some, again]

theorem readRefUnread {s : Slice} {c : Cell} {w : Builder} (front : s.unread = ofCell c ++ w) :
    ∃ t, readRef s = some (.cell c, t) ∧ t.unread = w := by
  obtain ⟨t, taken, after⟩ := Slice.refUnread front
  exact ⟨t, by rw [readRef, taken]; rfl, after⟩

theorem readRootUnread {v : Value} {s : Slice} {w : Builder} (dict : v.IsRoot) (front : s.unread = rootWire v ++ w) :
    ∃ t, readDict s = some (v, t) ∧ t.unread = w := by
  cases dict with
  | none =>
    obtain ⟨t, taken, after⟩ := Slice.takeUnread front
    exact ⟨t, by rw [readDict, show 1 = [false].length from rfl, taken], after⟩
  | cell c =>
    rw [rootWire, appendAssoc] at front
    obtain ⟨t, taken, after⟩ := Slice.takeUnread front
    obtain ⟨u, found, last⟩ := readRefUnread after
    exact ⟨u, by rw [readDict, show 1 = [true].length from rfl, taken]; exact found, last⟩

theorem readSliceUnread {s data : Slice} {w : Builder} {n : Int} (size : (data.bits.length : Int) = n)
    (bare : data.refs = []) (front : s.unread = data.unread ++ w) :
    ∃ t, readSlice n s = some (.slice (.ofCell data.rest), t) ∧ t.unread = w := by
  have plain : data.unread = ofBits data.bits := by rw [Slice.unread, bare, ofBits]
  rw [plain] at front
  obtain ⟨t, taken, after⟩ := readBitsUnread size front
  refine ⟨t, ?_, after⟩
  rw [readSlice, taken, Option.map_some, Slice.rest, bare]

end Machine

namespace Emit

namespace Load

structure LoadsLeaf (target : Target) (limits : Capacity) (t : Ty) (code : List Instr) : Prop where
  sized : ∃ size, t.leafSize? target = some size
  within : Within code
  leads : ∀ (v : Value) (s : Slice) (w : Builder) (rest : List Value), HasType target t v →
    s.unread = leafWire t v ++ w →
      ∃ s', s'.unread = w ∧ Leads limits code (.slice s :: rest) (.slice s' :: v.reread :: rest)

theorem LoadsLeaf.one {t : Ty} {o : Opcode} {operands : List Int} {read : Slice → Option (Value × Slice)}
    (sized : ∃ size, t.leafSize? target = some size) (carried : o.stackOperands = false)
    (opens : simple o operands = load read)
    (reads : ∀ (v : Value) (s : Slice) (w : Builder), HasType target t v → s.unread = leafWire t v ++ w →
      ∃ s', read s = some (v.reread, s') ∧ s'.unread = w) :
    LoadsLeaf target limits t [.simple o operands] := by
  refine ⟨sized, withinCarried carried _, ?_⟩
  intro v s w rest typed front
  obtain ⟨s', found, after⟩ := reads v s w typed front
  exact ⟨s', after, .one fun root n => by rw [opens]; exact loadOk found⟩

theorem arrayLeads {count : Word} {v : Value} {s : Slice} {w : Builder}
    (short : count.toNat < valueCount arrayLengthBits.toNat) (dict : v.IsRoot)
    (front : s.unread = ofBits (wordBits count arrayLengthBits.toNat) ++ (rootWire v ++ w)) (limits : Capacity)
    (rest : List Value) : ∃ s', s'.unread = w ∧
      Leads limits [.simple .ldU [arrayLengthBits], .simple .ldDict [], .simple .rotRev [], .simple .pair [],
        .simple .swap []] (.slice s :: rest) (.slice s' :: .tuple [.int count, v] :: rest) := by
  obtain ⟨s', counted, middle⟩ := readUnsignedUnread (by decide) (by decide) short front
  obtain ⟨s'', found, after⟩ := readRootUnread dict middle
  refine ⟨s'', after, ?_⟩
  refine .cons (.slice s' :: .int count :: rest) (fun _ _ => loadOk counted) ?_
  refine .cons (.slice s'' :: v :: .int count :: rest) (fun _ _ => loadOk found) ?_
  refine .cons (v :: .int count :: .slice s'' :: rest) (fun _ _ => rfl) ?_
  refine .cons (.tuple [.int count, v] :: .slice s'' :: rest) (fun _ _ => rfl) ?_
  exact .one fun _ _ => rfl

theorem leafLoads (limits : Capacity) (t : Ty) :
    Writes target (leaf t) fun _ _ code _ => LoadsLeaf target limits t code := by
  cases t with
  | integer signed bits =>
    cases signed with
    | false =>
      refine .op fun _ _ => .one ⟨_, rfl⟩ rfl rfl fun v s w typed front => ?_
      cases typed with
      | unsigned least most fits =>
        have low : 0 ≤ bits := by omega
        exact readUnsignedUnread low most fits front
    | true =>
      refine .op fun _ _ => .one ⟨_, rfl⟩ rfl rfl fun v s w typed front => ?_
      cases typed with
      | signed least most above below => exact readSignedUnread least most above below front
  | bool =>
    refine .op fun _ _ => .one ⟨_, rfl⟩ rfl rfl fun v s w typed front => ?_
    cases typed with
    | bool flag =>
      rcases flag with rfl | rfl
      · exact readSignedUnread le_rfl (by decide) (by decide) (by decide) front
      · exact readSignedUnread le_rfl (by decide) (by decide) (by decide) front
  | mapping key value =>
    refine .op fun _ _ => .one ⟨_, rfl⟩ rfl rfl fun v s w typed front => ?_
    cases typed with
    | mapping dict =>
      rw [dict.rereadSelf]
      exact readRootUnread dict front
  | bytes name | cell =>
    refine .op fun _ _ => .one ⟨_, rfl⟩ rfl rfl fun v s w typed front => ?_
    cases typed
    exact readRefUnread front
  | address =>
    refine .bind (Q := fun _ t code _ => t = target ∧ code = []) (.readTarget fun _ => ⟨rfl, rfl⟩) ?_
    rintro _ _ _ _ ⟨rfl, rfl⟩
    refine .op fun _ _ _ => .one ⟨_, rfl⟩ rfl rfl fun v s w typed front => ?_
    cases typed with
    | address size bare => exact readSliceUnread size bare front
  | array element =>
    refine .opThen (.opThen (.opThen (.opThen (.op ?_))))
    intro _ _ _ _ _ _
    refine ⟨⟨_, rfl⟩, by decide, fun v s w rest typed front => ?_⟩
    cases typed with
    | @array _ count v short dict =>
      rw [leafWire, appendAssoc] at front
      have same : Value.reread (.tuple [.int count, v]) = .tuple [.int count, v] := by
        simp [Value.reread, Value.rereadAll, dict.rereadSelf]
      rw [same]
      exact arrayLeads short dict front limits rest
  | _ => exact .abort

structure FollowsLink (limits : Capacity) (code : List Instr) : Prop where
  within : Within code
  leads : ∀ (s : Slice) (c : Cell) (w : Builder) (rest : List Value), s.unread = ofCell c ++ w →
    Leads limits code (.slice s :: rest) (.slice (.ofCell c) :: rest)

structure Packs (limits : Capacity) (k : Nat) (code : List Instr) : Prop where
  within : Within code
  leads : ∀ (s : Value) (items rest : List Value), items.length = k →
    Leads limits code (s :: (items.reverse ++ rest)) (s :: .tuple items :: rest)

theorem linkFollows (limits : Capacity) :
    Writes target followLink fun _ _ code _ => FollowsLink limits code := by
  refine .opThen (.op fun _ _ _ => ⟨by decide, fun s c w rest front => ?_⟩)
  obtain ⟨t, found, -⟩ := Slice.refUnread front
  refine .cons (.slice (.ofCell c) :: .slice t :: rest) (fun root n => ?_) (.one fun _ _ => rfl)
  simp only [simple]
  rw [bindOfOk (popSliceOk ..), found]
  rfl

theorem groupPacks (limits : Capacity) (k : Nat) :
    Writes target (group k) fun _ _ code _ => Packs limits k code := by
  refine .bind (blockSwapSettles limits k 1) fun _ _ first _ moved => ?_
  refine .bind (tupleLeads limits k) fun _ _ second _ packed => ?_
  refine (swapSettles limits).mono fun _ _ third _ swapped _ _ => ?_
  have small : Within first := moved.1 (by have := packed.2.1; simp only [operandLimit]; omega) (by decide)
  refine ⟨withinAppend.2 ⟨small, withinAppend.2 ⟨packed.1, swapped.1⟩⟩, fun s items rest size => ?_⟩
  have below := (moved.2 [s] items.reverse rest rfl (by simp [size])).leads small
  have last := (swapped.2 (.tuple items) s rest).leads swapped.1
  exact below.append ((packed.2.2 items (s :: rest) size).append last)

/- Code that loads values of `types` from a tape of their pieces, marked as their leaves were placed. -/
structure Loads (target : Target) (limits : Capacity) (types : List Ty) (marks : List Bool) (p q : Position)
    (code : List Instr) : Prop where
  placed : p.Placed marks q
  count : marks.length = (Ty.sizesAll target types).length
  within : Within code
  leads : ∀ (vs : List Value) (s : Slice) (w : Builder) (rest : List Value), HaveTypes target types vs →
    s.unread = tape (marks.zip (wiresAll types vs)) w →
      ∃ s', s'.unread = w ∧ Leads limits code (.slice s :: rest) (.slice s' :: ((Value.rereadAll vs).reverse ++ rest))

namespace Loads

theorem nil (p : Position) : Loads target limits [] [] p p [] := by
  refine ⟨.nil p, rfl, by decide, ?_⟩
  intro vs s w rest typed front
  cases typed
  exact ⟨s, front, .nil limits _⟩

theorem cons {t : Ty} {types : List Ty} {marks more : List Bool} {p q r : Position} {a b : List Instr}
    (first : Loads target limits [t] marks p q a) (second : Loads target limits types more q r b) :
    Loads target limits (t :: types) (marks ++ more) p r (a ++ b) := by
  refine ⟨first.placed.append second.placed, ?_, withinAppend.2 ⟨first.within, second.within⟩, ?_⟩
  · simp [first.count, second.count, Ty.sizesAll]
  · intro vs s w rest typed front
    cases typed with
    | @cons _ _ v vs one others =>
      rw [zipWires one first.count, tapeAppend] at front
      obtain ⟨s', middle, one⟩ := first.leads [v] s _ rest (.cons one .nil) front
      obtain ⟨s'', after, two⟩ := second.leads vs s' w (v.reread :: rest) others middle
      refine ⟨s'', after, ?_⟩
      have whole := one.append two
      simpa [Value.rereadAll] using whole

theorem single {t : Ty} {p q : Position} {opened : Bool} {a b : List Instr} (single : t.parts? = none)
    (next : p.next = .ok (opened, q))
    (linked : if opened then FollowsLink limits a else a = [])
    (read : LoadsLeaf target limits t b) : Loads target limits [t] [opened] p q (a ++ b) := by
  obtain ⟨size, found⟩ := read.sized
  refine ⟨.cons next (.nil q), by simp [Ty.sizesAll, Ty.sizesSingle single, found], ?_, ?_⟩
  · refine withinAppend.2 ⟨?_, read.within⟩
    cases opened with
    | false => simp only [Bool.false_eq_true, if_false] at linked; rw [linked]; decide
    | true => exact linked.within
  · intro vs s w rest typed front
    cases typed with
    | @cons _ _ v _ one none =>
      cases none
      have wires : [opened].zip (wiresAll [t] [v]) = [(opened, leafWire t v)] := by
        simp [wiresAll, wiresSingle single]
      rw [wires, tape, tape] at front
      cases opened with
      | false =>
        simp only [Bool.false_eq_true, if_false] at linked front
        subst linked
        exact read.leads v s w rest one front
      | true =>
        simp only [if_true] at front
        obtain ⟨s', after, last⟩ := read.leads v (.ofCell (leafWire t v ++ w).finish) w rest one rfl
        rw [← appendEmpty (ofCell _)] at front
        exact ⟨s', after, (linked.leads s _ _ rest front).append last⟩

theorem group {t : Ty} {types : List Ty} {marks : List Bool} {p q : Position} {a b : List Instr}
    (group : t.parts? = some types) (members : Loads target limits types marks p q a)
    (packed : Packs limits types.length b) :
    Loads target limits [t] marks p q (a ++ b) := by
  have sizes : Ty.sizesAll target [t] = Ty.sizesAll target types := by
    simp [Ty.sizesAll, Ty.sizesGroup group]
  refine ⟨members.placed, by rw [sizes, members.count], withinAppend.2 ⟨members.within, packed.within⟩, ?_⟩
  intro vs s w rest typed front
  cases typed with
  | cons one none =>
    cases none
    obtain ⟨items, rfl, inner⟩ := one.members group
    have wires : wiresAll [t] [.tuple items] = wiresAll types items := by
      simp [wiresAll, wiresGroup group]
    rw [wires] at front
    obtain ⟨s', after, loaded⟩ := members.leads items s w rest inner front
    have size : (Value.rereadAll items).length = types.length := by
      rw [Value.rereadAllLength, inner.length]
    have whole := loaded.append (packed.leads (.slice s') _ rest size)
    exact ⟨s', after, by simpa [Value.rereadAll, Value.reread] using whole⟩

end Loads

theorem valuesLoad (target : Target) (limits : Capacity) :
    (∀ t p, Writes target (value t p) fun _ q code _ => ∃ marks, Loads target limits [t] marks p q code) ∧
    ∀ types p, Writes target (values types p) fun _ q code _ => ∃ marks, Loads target limits types marks p q code := by
  apply Ty.groupInduction
  · intro t single p
    rw [valueSingle single]
    refine .bind (Q := fun _ q code _ => p.next = .ok q ∧ code = []) (.lift fun q ok _ => ⟨ok, rfl⟩) ?_
    rintro _ ⟨opened, q⟩ _ _ ⟨next, rfl⟩
    refine .bind (Q := fun _ _ code _ => if opened then FollowsLink limits code else code = []) ?_ ?_
    · cases opened with
      | false => exact .pure fun _ => rfl
      | true => exact linkFollows limits
    · intro _ _ a _ linked
      refine .bind (leafLoads limits t) fun _ _ b _ read => .pure fun _ _ _ _ => ⟨[opened], ?_⟩
      rw [List.nil_append, List.append_nil]
      exact .single single next linked read
  · intro t types group ih p
    rw [valueGroup group]
    refine .bind (ih p) ?_
    rintro _ q a _ ⟨marks, members⟩
    refine .bind (groupPacks limits types.length) fun _ _ b _ packed => .pure fun _ _ _ => ⟨marks, ?_⟩
    rw [List.append_nil]
    exact .group group members packed
  · intro p
    simp only [values]
    exact .pure fun _ => ⟨[], .nil p⟩
  · intro t rest one others p
    simp only [values]
    refine .bind (one p) ?_
    rintro _ q a _ ⟨marks, first⟩
    refine (others q).mono ?_
    rintro _ r b _ ⟨more, second⟩ _
    exact ⟨marks ++ more, first.cons second⟩

end Load

structure Loaded (target : Target) (limits : Capacity) (types : List Ty) (p : Position) (marks : List Bool)
    (code : List Instr) : Prop where
  placed : ∃ q, p.Placed marks q ∧ q.done = true
  leads : ∀ (vs : List Value) (s : Slice) (rest : List Value), HaveTypes target types vs →
    s.unread = tape (marks.zip (wiresAll types vs)) .empty →
      ∃ s', s'.isEmpty = true ∧
        Leads limits code (.slice s :: rest) (.slice s' :: ((Value.rereadAll vs).reverse ++ rest))

theorem loadValuesLoaded (limits : Capacity) (types : List Ty) (p : Position) :
    Writes target (loadValues types p) fun _ _ code _ => ∃ marks, Loaded target limits types p marks code := by
  refine .bind (Q := fun _ _ code _ => code = []) (.depth fun _ => rfl) ?_
  rintro _ before _ _ rfl
  refine .bind (Q := fun _ _ code _ => code = []) (.check fun _ _ => rfl) ?_
  rintro _ _ _ _ rfl
  refine .bind ((Load.valuesLoad target limits).2 types p) ?_
  rintro _ q a _ ⟨marks, loads⟩
  refine .bind (Q := fun _ _ code _ => q.done = true ∧ code = []) (.check fun h _ => ⟨h, rfl⟩) ?_
  rintro _ _ _ _ ⟨done, rfl⟩
  refine .bind (Q := fun _ _ code _ => code = []) (.ensureDepth rfl) ?_
  rintro _ _ _ _ rfl
  refine .pure fun _ _ _ _ _ _ => ⟨marks, ⟨q, loads.placed, done⟩, fun vs s rest typed front => ?_⟩
  simp only [List.nil_append, List.append_nil]
  obtain ⟨s', after, loaded⟩ := loads.leads vs s .empty rest typed front
  have bits : s'.bits = [] := congrArg Builder.bits after
  have refs : s'.refs = [] := congrArg Builder.refs after
  exact ⟨s', by simp [Slice.isEmpty, bits, refs], loaded⟩

end Emit

end CellChain
