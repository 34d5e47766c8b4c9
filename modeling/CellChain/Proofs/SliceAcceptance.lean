import Mathlib
import CellChain.Proofs.CodecCompletion
import CellChain.Proofs.ExactReading
import CellChain.Proofs.Following
import CellChain.Proofs.ProgramRoundTrips
/-! What reading a struct accepts. A slice of any content that is read to its end gives values of the types that
were asked for, and these are written as the cells that were read: what was left unread where a link was followed is
gone, and nothing else. -/
namespace CellChain

open Machine Builder

namespace Slice

/- The unread part of a slice, without what was left unread in a cell from which a link was followed: the bits, and
the references after the link. The slices from which links were followed are as they stood then. -/
def trimmed (s : Slice) : List Slice → Builder
  | [] => s.unread
  | t :: later =>
    match t.refs with
    | [] => s.unread
    | link :: _ =>
      ⟨s.bits.rdrop t.bits.length, s.refs.rdrop t.refs.length⟩ ++ Builder.ofCell (trimmed (.ofCell link) later).finish

/- Pieces taken off a chain of cells, from one slice to another. A piece that opens a cell is the first of the cell
that the next reference leads to. -/
inductive Unwinds : List (Bool × Builder) → Slice → List Slice → Slice → Prop
  | nil (s : Slice) : Unwinds [] s [] s
  | stays {x : Builder} {pieces : List (Bool × Builder)} {s t last : Slice} {links : List Slice}
      (front : s.unread = x ++ t.unread) (more : Unwinds pieces t links last) :
      Unwinds ((false, x) :: pieces) s links last
  | opens {x : Builder} {pieces : List (Bool × Builder)} {s t last : Slice} {links : List Slice} {c : Cell}
      {others : List Cell} (link : s.refs = c :: others) (front : (Slice.ofCell c).unread = x ++ t.unread)
      (more : Unwinds pieces t links last) : Unwinds ((true, x) :: pieces) s (s :: links) last

theorem readBefore {s t : Slice} {x : Builder} (front : s.unread = x ++ t.unread) :
    (⟨s.bits.rdrop t.bits.length, s.refs.rdrop t.refs.length⟩ : Builder) = x := by
  have bits : s.bits = x.bits ++ t.bits := congrArg Builder.bits front
  have refs : s.refs = x.refs ++ t.refs := congrArg Builder.refs front
  rw [bits, refs]
  simp [List.rdrop]

namespace Unwinds

variable {pieces more : List (Bool × Builder)} {s t last : Slice} {links later : List Slice}

theorem append (first : Unwinds pieces s links t) (second : Unwinds more t later last) :
    Unwinds (pieces ++ more) s (links ++ later) last := by
  induction first with
  | nil s => exact second
  | stays front _ ih => exact .stays front (ih second)
  | opens link front _ ih => exact .opens link front (ih second)

theorem firstWithin (h : Unwinds pieces s (t :: links) last) : ∃ x, s.unread = x ++ t.unread := by
  generalize listed : t :: links = all at h
  induction h with
  | nil s => cases listed
  | stays front _ ih =>
    obtain ⟨x, behind⟩ := ih listed
    exact ⟨_, by rw [front, behind, ← appendAssoc]⟩
  | opens link front more ih =>
    cases listed
    exact ⟨.empty, by rw [emptyAppend]⟩

theorem trimmedPast {x : Builder} (h : Unwinds pieces t links last) (front : s.unread = x ++ t.unread) :
    s.trimmed links = x ++ t.trimmed links := by
  cases links with
  | nil => exact front
  | cons u later =>
    obtain ⟨y, behind⟩ := h.firstWithin
    rw [trimmed, trimmed]
    split
    · exact front
    · rw [behind, ← appendAssoc] at front
      rw [readBefore front, readBefore behind, appendAssoc]

theorem trims (h : Unwinds pieces s links last) (ended : last.unread = .empty) :
    tape pieces .empty = s.trimmed links := by
  induction h with
  | nil s => exact ended.symm
  | stays front more ih =>
    rw [more.trimmedPast front, ← ih ended]
    rfl
  | @opens x pieces s t last links c others link front more ih =>
    have own : s.unread = .empty ++ s.unread := rfl
    rw [trimmed, link]
    simp only
    rw [← link, readBefore own, emptyAppend, more.trimmedPast front, ← ih ended]
    rfl

theorem linkless (h : Unwinds pieces s links last) (closed : ∀ piece ∈ pieces, piece.1 = false) : links = [] := by
  induction h with
  | nil s => rfl
  | stays front _ ih => exact ih fun piece inside => closed piece (List.mem_cons_of_mem _ inside)
  | opens => cases closed _ List.mem_cons_self

end Unwinds

end Slice

variable {target : Target} {limits : Capacity}

namespace Emit

namespace Load

def TakesLeaf (target : Target) (limits : Capacity) (t : Ty) (code : List Instr) : Prop :=
  ∀ (s : Slice) (rest : List Value), Completing limits code (.slice s :: rest) fun links after =>
    links = [] ∧ ∃ v s', after = .slice s' :: v :: rest ∧ HasType target t v ∧ s.unread = leafWire t v ++ s'.unread

theorem TakesLeaf.one {t : Ty} {o : Opcode} {operands : List Int} {read : Slice → Option (Value × Slice)}
    (opens : simple o operands = load read) (other : o ≠ .ldRefRToS)
    (exact : ∀ s v s', read s = some (v, s') → HasType target t v ∧ s.unread = leafWire t v ++ s'.unread) :
    TakesLeaf target limits t [.simple o operands] := by
  intro s rest
  apply Completing.load opens other
  intro v s' found
  exact ⟨rfl, v, s', rfl, exact s v s' found⟩

theorem arrayTakes (element : Ty) : TakesLeaf target limits (.array element)
    [.simple .ldU [arrayLengthBits], .simple .ldDict [], .simple .rotRev [], .simple .pair [], .simple .swap []] := by
  intro s rest
  apply Completing.append (a := [.simple .ldU [arrayLengthBits]])
    (P := fun links after => links = [] ∧ ∃ n s', after = .slice s' :: .int n :: rest ∧
      n.toNat < valueCount arrayLengthBits.toNat ∧
      s.unread = ofBits (wordBits n arrayLengthBits.toNat) ++ s'.unread)
  · apply Completing.load rfl (by decide)
    intro v s' found
    obtain ⟨n, rfl, short, front⟩ := readUnsignedExact (by decide) found
    exact ⟨rfl, n, s', rfl, short, front⟩
  · intro links after counted
    obtain ⟨rfl, n, s', rfl, short, front⟩ := counted
    apply Completing.append (a := [.simple .ldDict []])
      (P := fun links after => links = [] ∧ ∃ v s'', after = .slice s'' :: v :: .int n :: rest ∧ v.IsRoot ∧
        s'.unread = rootWire v ++ s''.unread)
    · apply Completing.load rfl (by decide)
      intro v s'' found
      obtain ⟨root, behind⟩ := readDictExact found
      exact ⟨rfl, v, s'', rfl, root, behind⟩
    · intro links after rooted
      obtain ⟨rfl, v, s'', rfl, root, behind⟩ := rooted
      have quiet : Quiet [.simple .rotRev [], .simple .pair [], .simple .swap []] :=
        (Quiet.one (by decide) []).append ((Quiet.one (by decide) []).append (.one (by decide) []))
      have paired : Leads limits [.simple .rotRev [], .simple .pair [], .simple .swap []]
          (.slice s'' :: v :: .int n :: rest) (.slice s'' :: .tuple [.int n, v] :: rest) :=
        .cons (v :: .int n :: .slice s'' :: rest) (fun _ _ => rfl)
          (.cons (.tuple [.int n, v] :: .slice s'' :: rest) (fun _ _ => rfl) (.one fun _ _ => rfl))
      refine .ofLeads quiet paired ⟨rfl, _, s'', rfl, .array short root, ?_⟩
      rw [front, behind, leafWire, appendAssoc]

theorem leafTakes (limits : Capacity) (t : Ty) (width : t.WidthOk) :
    Writes target (leaf t) fun _ _ code _ => TakesLeaf target limits t code := by
  cases t with
  | integer signed bits =>
    obtain ⟨least, most⟩ := width
    cases signed with
    | false =>
      refine .op fun _ _ => .one rfl (by decide) fun s v s' found => ?_
      obtain ⟨x, rfl, fits, front⟩ := readUnsignedExact most found
      exact ⟨.unsigned least most fits, front⟩
    | true =>
      refine .op fun _ _ => .one rfl (by decide) fun s v s' found => ?_
      obtain ⟨x, rfl, above, below, front⟩ := readSignedExact least most found
      exact ⟨.signed least most above below, front⟩
  | bool =>
    refine .op fun _ _ => .one rfl (by decide) fun s v s' found => ?_
    obtain ⟨x, rfl, above, below, front⟩ := readSignedExact le_rfl (by decide) found
    have least : -1 ≤ x.toInt := above
    have most : x.toInt < 1 := below
    have flag : x = 0 ∨ x = -1 := by
      rcases (by omega : x.toInt = 0 ∨ x.toInt = -1) with zero | negative
      · exact .inl (BitVec.eq_of_toInt_eq zero)
      · exact .inr (BitVec.eq_of_toInt_eq negative)
    exact ⟨.bool flag, front⟩
  | mapping key value =>
    refine .op fun _ _ => .one rfl (by decide) fun s v s' found => ?_
    obtain ⟨root, front⟩ := readDictExact found
    exact ⟨.mapping root, front⟩
  | bytes name | cell =>
    refine .op fun _ _ => .one rfl (by decide) fun s v s' found => ?_
    obtain ⟨c, rfl, front⟩ := readRefExact found
    exact ⟨by constructor, front⟩
  | address =>
    refine .bind (Q := fun _ t code _ => t = target ∧ code = []) (.readTarget fun _ => ⟨rfl, rfl⟩) ?_
    intro _ _ _ _ read
    obtain ⟨rfl, rfl⟩ := read
    refine .op fun _ _ _ => .one rfl (by decide) fun s v s' found => ?_
    obtain ⟨data, rfl, size, bare, front⟩ := readSliceExact found
    exact ⟨.address size bare, front⟩
  | array element =>
    exact .opThen (.opThen (.opThen (.opThen (.op fun _ _ _ _ _ _ => arrayTakes element))))
  | _ => exact .abort

def GoesOn (limits : Capacity) (code : List Instr) : Prop :=
  ∀ (s : Slice) (rest : List Value), Completing limits code (.slice s :: rest) fun links after =>
    links = [s] ∧ ∃ c others, s.refs = c :: others ∧ after = .slice (.ofCell c) :: rest

theorem linkGoesOn (limits : Capacity) : Writes target followLink fun _ _ code _ => GoesOn limits code := by
  refine .opThen (.op fun _ _ _ s rest => ?_)
  apply Completing.append (a := [.simple .ldRefRToS []])
    (P := fun links after => links = [s] ∧ ∃ c others t, s.refs = c :: others ∧
      after = .slice (.ofCell c) :: .slice t :: rest)
  · apply Completing.link
    intro c t found
    exact ⟨rfl, c, t.refs, t, congrArg Builder.refs (Slice.refExact found), rfl⟩
  · intro links after followed
    obtain ⟨rfl, c, others, t, link, rfl⟩ := followed
    exact .ofLeads (.one (by decide) []) (.one fun _ _ => rfl) ⟨rfl, c, others, link, rfl⟩

theorem tupleQuiet (k : Nat) : Writes target (tuple k) fun _ _ code _ => Quiet code := by
  refine (tupleOpCode _ _ k).mono fun _ _ code _ written => ?_
  rcases written.2 with ⟨-, rfl⟩ | rfl
  · exact .one (by decide) _
  · exact .pushed (by decide) _ _

theorem groupQuiet (k : Nat) : Writes target (group k) fun _ _ code _ => Quiet code := by
  refine .bind (Q := fun _ _ code _ => Quiet code) ((blockSwapCode k 1).mono ?_) fun _ _ a _ moved => ?_
  · intro _ _ code _ written
    rcases written with ⟨-, rfl⟩ | ⟨-, rfl⟩ | ⟨-, -, -, rfl⟩ | ⟨-, rfl⟩
    · exact .nil
    · exact .one (by decide) _
    · exact .one (by decide) _
    · exact (Quiet.push _).append (.pushed (by decide) _ _)
  · refine .bind (tupleQuiet k) fun _ _ b _ packed => .op fun _ _ _ _ => ?_
    exact moved.append (packed.append (.one (by decide) _))

structure Takes (target : Target) (limits : Capacity) (types : List Ty) (marks : List Bool) (p q : Position)
    (code : List Instr) : Prop where
  placed : p.Placed marks q
  count : marks.length = (Ty.sizesAll target types).length
  takes : ∀ (s : Slice) (rest : List Value), Completing limits code (.slice s :: rest) fun links after =>
    ∃ vs s', after = .slice s' :: (vs.reverse ++ rest) ∧ HaveTypes target types vs ∧
      Slice.Unwinds (marks.zip (wiresAll types vs)) s links s'

namespace Takes

theorem nil (p : Position) : Takes target limits [] [] p p [] := by
  refine ⟨.nil p, rfl, fun s rest => ?_⟩
  exact .ofLeads .nil (.nil limits _) ⟨[], s, rfl, .nil, .nil s⟩

theorem cons {t : Ty} {types : List Ty} {marks more : List Bool} {p q r : Position} {a b : List Instr}
    (first : Takes target limits [t] marks p q a) (second : Takes target limits types more q r b) :
    Takes target limits (t :: types) (marks ++ more) p r (a ++ b) := by
  refine ⟨first.placed.append second.placed, ?_, fun s rest => ?_⟩
  · simp [first.count, second.count, Ty.sizesAll]
  · apply (first.takes s rest).append
    intro links after one
    obtain ⟨vs, s', rfl, typed, unwound⟩ := one
    cases typed with
    | @cons _ _ v _ own none =>
      cases none
      apply (second.takes s' (v :: rest)).mono
      intro later last others
      obtain ⟨vs, s'', rfl, typed, further⟩ := others
      refine ⟨v :: vs, s'', by simp, .cons own typed, ?_⟩
      rw [zipWires own first.count]
      exact unwound.append further

theorem single {t : Ty} {p q : Position} {opened : Bool} {a b : List Instr} (single : t.parts? = none)
    (sized : ∃ size, t.leafSize? target = some size) (next : p.next = .ok (opened, q))
    (linked : if opened then GoesOn limits a else a = []) (read : TakesLeaf target limits t b) :
    Takes target limits [t] [opened] p q (a ++ b) := by
  obtain ⟨size, found⟩ := sized
  refine ⟨.cons next (.nil q), by simp [Ty.sizesAll, Ty.sizesSingle single, found], fun s rest => ?_⟩
  have wires (v : Value) : [opened].zip (wiresAll [t] [v]) = [(opened, leafWire t v)] := by
    simp [wiresAll, wiresSingle single]
  cases opened with
  | false =>
    simp only [Bool.false_eq_true, if_false] at linked
    rw [linked]
    apply (read s rest).mono
    intro links after taken
    obtain ⟨rfl, v, s', rfl, typed, front⟩ := taken
    refine ⟨[v], s', rfl, .cons typed .nil, ?_⟩
    rw [wires]
    exact .stays front (.nil s')
  | true =>
    simp only [if_true] at linked
    apply (linked s rest).append
    intro links after followed
    obtain ⟨rfl, c, others, link, rfl⟩ := followed
    apply (read (.ofCell c) rest).mono
    intro more after taken
    obtain ⟨rfl, v, s', rfl, typed, front⟩ := taken
    refine ⟨[v], s', rfl, .cons typed .nil, ?_⟩
    rw [wires]
    exact .opens link front (.nil s')

theorem group {t : Ty} {types : List Ty} {marks : List Bool} {p q : Position} {a b : List Instr}
    (group : t.parts? = some types) (members : Takes target limits types marks p q a)
    (packed : Packs limits types.length b) (quiet : Quiet b) : Takes target limits [t] marks p q (a ++ b) := by
  have sizes : Ty.sizesAll target [t] = Ty.sizesAll target types := by
    simp [Ty.sizesAll, Ty.sizesGroup group]
  refine ⟨members.placed, by rw [sizes, members.count], fun s rest => ?_⟩
  apply (members.takes s rest).append
  intro links after inner
  obtain ⟨vs, s', rfl, typed, unwound⟩ := inner
  refine .ofLeads quiet (packed.leads (.slice s') vs rest typed.length) ?_
  refine ⟨[.tuple vs], s', rfl, .cons (.ofMembers group typed) .nil, ?_⟩
  have wires : wiresAll [t] [.tuple vs] = wiresAll types vs := by
    simp [wiresAll, wiresGroup group]
  rw [wires, List.append_nil]
  exact unwound

end Takes

theorem valuesTake (target : Target) (limits : Capacity) :
    (∀ t p, t.WidthsOk →
      Writes target (value t p) fun _ q code _ => ∃ marks, Takes target limits [t] marks p q code) ∧
    ∀ types p, Ty.WidthsOkAll types →
      Writes target (values types p) fun _ q code _ => ∃ marks, Takes target limits types marks p q code := by
  apply Ty.groupInduction
  · intro t single p widths
    rw [Ty.widthsSingle single] at widths
    rw [valueSingle single]
    refine .bind (Q := fun _ q code _ => p.next = .ok q ∧ code = []) (.lift fun q ok _ => ⟨ok, rfl⟩) ?_
    intro _ pair _ _ placed
    obtain ⟨opened, q⟩ := pair
    obtain ⟨next, rfl⟩ := placed
    refine .bind (Q := fun _ _ code _ => if opened then GoesOn limits code else code = []) ?_ ?_
    · cases opened with
      | false => exact .pure fun _ => rfl
      | true => exact linkGoesOn limits
    · intro _ _ a _ linked
      refine .bind ((leafLoads limits t).and (leafTakes limits t widths)) fun _ _ b _ read => ?_
      refine .pure fun _ _ _ _ => ⟨[opened], ?_⟩
      rw [List.nil_append, List.append_nil]
      exact .single single read.1.sized next linked read.2
  · intro t types group ih p widths
    rw [Ty.widthsGroup group] at widths
    rw [valueGroup group]
    refine .bind (ih p widths) fun _ q a _ inner => ?_
    obtain ⟨marks, members⟩ := inner
    refine .bind ((groupPacks limits types.length).and (groupQuiet types.length)) fun _ _ b _ packed => ?_
    refine .pure fun _ _ _ => ⟨marks, ?_⟩
    rw [List.append_nil]
    exact .group group members packed.1 packed.2
  · intro p _
    simp only [values]
    exact .pure fun _ => ⟨[], .nil p⟩
  · intro t rest one others p widths
    simp only [values]
    refine .bind (one p widths.1) fun _ q a _ first => ?_
    obtain ⟨marks, first⟩ := first
    refine (others q widths.2).mono fun _ r b _ second _ => ?_
    obtain ⟨more, second⟩ := second
    exact ⟨marks ++ more, first.cons second⟩

end Load

theorem loadValuesTake {types : List Ty} (widths : Ty.WidthsOkAll types) (limits : Capacity) (p : Position) :
    Writes target (loadValues types p) fun _ _ code _ =>
      ∃ marks q, q.done = true ∧ Load.Takes target limits types marks p q code := by
  refine .bind (Q := fun _ _ code _ => code = []) (.depth fun _ => rfl) ?_
  rintro _ before _ _ rfl
  refine .bind (Q := fun _ _ code _ => code = []) (.check fun _ _ => rfl) ?_
  rintro _ _ _ _ rfl
  refine .bind ((Load.valuesTake target limits).2 types p widths) ?_
  rintro _ q a _ ⟨marks, taken⟩
  refine .bind (Q := fun _ _ code _ => q.done = true ∧ code = []) (.check fun h _ => ⟨h, rfl⟩) ?_
  rintro _ _ _ _ ⟨done, rfl⟩
  refine .bind (Q := fun _ _ code _ => code = []) (.ensureDepth rfl) ?_
  rintro _ _ _ _ rfl
  refine .pure fun _ _ _ _ _ _ => ⟨marks, q, done, ?_⟩
  simp only [List.nil_append, List.append_nil]
  exact taken

end Emit

end CellChain
