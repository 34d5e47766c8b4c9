import Mathlib
import CellChain.Proofs.FragmentCompletion
/-! Default values at run time. The code for them leaves the value that each type starts with. Only the zero address
can fail: its last bits are stored as one integer, so that an address of fewer than 11 bits has a negative width
left, and one of more than 267 bits a width that no word has. -/
namespace CellChain

namespace Ty

mutual
def holdsAddress : Ty → Bool
  | .address => true
  | .struct _ _ types | .tuple types => holdAddress types
  | _ => false

def holdAddress : List Ty → Bool
  | [] => false
  | t :: rest => t.holdsAddress || holdAddress rest
end

theorem holdsGroup {t : Ty} {types : List Ty} (group : t.parts? = some types) :
    t.holdsAddress = holdAddress types := by
  cases t <;> cases group <;> simp only [holdsAddress]

/- The value that a type starts with. An address starts with the tag `100`, and all its other bits are zero. -/
mutual
def initial (target : Target) : Ty → Value
  | .integer .. | .bool => .int 0
  | .array _ => .tuple [.int 0, .null]
  | .bytes _ | .cell => .cell .empty
  | .address => .slice (.ofCell (.mk (true :: List.replicate (target.addressBits - 1).toNat false) []))
  | .struct _ _ types | .tuple types => .tuple (initials target types)
  | .mapping .. | .named _ | .other _ => .null

def initials (target : Target) : List Ty → List Value
  | [] => []
  | t :: rest => t.initial target :: initials target rest
end

theorem initialGroup {t : Ty} {types : List Ty} (group : t.parts? = some types) (target : Target) :
    t.initial target = .tuple (initials target types) := by
  cases t <;> cases group <;> simp only [initial]

theorem initialsLength (target : Target) (types : List Ty) : (initials target types).length = types.length := by
  induction types with
  | nil => rfl
  | cons t rest ih => simp [initials, ih]

end Ty

namespace Target

def MakesAddress (target : Target) : Prop := 11 ≤ target.addressBits ∧ target.addressBits ≤ 267

instance (target : Target) : Decidable target.MakesAddress := by unfold MakesAddress; infer_instance

def addressHalt (target : Target) : Halt :=
  if target.addressBits < 11 then .fault .rangeCheck (some (.simple .stU [target.addressBits - 11])) else .broken

structure Fits (target : Target) : Prop where
  tag : 11 ≤ target.cellBits
  address : target.addressBits ≤ target.cellBits
  refs : 0 ≤ target.cellRefs

end Target

open Machine

namespace Machine

def Halts (limits : Capacity) (code : List Instr) (before : List Value) (h : Halt) : Prop :=
  ∀ root n, ∃ m, run code ⟨before, root, limits, n⟩ = .error h m

variable {limits : Capacity} {a b : List Instr} {s s' : List Value} {h : Halt}

theorem Halts.append (first : Halts limits a s h) (b : List Instr) : Halts limits (a ++ b) s h := by
  intro root n
  obtain ⟨m, bad⟩ := first root n
  exact ⟨m, by rw [runAppend, bindOfError bad]⟩

theorem Halts.after (first : Leads limits a s s') (second : Halts limits b s' h) : Halts limits (a ++ b) s h := by
  intro root n
  obtain ⟨k, one⟩ := first root n
  obtain ⟨m, bad⟩ := second root k
  exact ⟨m, by rw [runAppend, bindOfOk one, bad]⟩

theorem Halts.one {op : Opcode} {operands : List Int} {why : Halt}
    (bad : ∀ root n, ∃ m, simple op operands ⟨s, root, limits, n⟩ = .error why m)
    (rest : List Instr) : Halts limits (.simple op operands :: rest) s (why.blamedOn (.simple op operands)) := by
  intro root n
  obtain ⟨m, stopped⟩ := bad root (n + 1)
  exact ⟨m, runConsError (by rw [step]; exact stopped) rest⟩

end Machine

theorem zeroBits {n : Nat} (width : n ≤ 256) : Builder.wordBits 0 n = List.replicate n false := by
  induction n with
  | zero => rfl
  | succ n ih =>
    rw [Builder.wordBitsSucc 0 (by omega), ih (by omega), List.replicate_succ]
    simp

namespace Emit

variable {target : Target}

structure Fills (target : Target) (types : List Ty) (code : List Instr) : Prop where
  leads : (Ty.holdAddress types = true → target.MakesAddress) → ∀ rest,
    Leads target.cell code rest ((Ty.initials target types).reverse ++ rest)
  halts : Ty.holdAddress types = true → ¬target.MakesAddress → ∀ rest,
    Halts target.cell code rest target.addressHalt

def tagCode : List Instr := [.pushInt (BitVec.ofInt 256 1024), .simple .newC [], .simple .stU [11]]

def restCode (target : Target) : List Instr :=
  [.pushInt (BitVec.ofInt 256 0), .simple .swap [], .simple .stU [target.addressBits - 11], .simple .endC [],
    .simple .cToS []]

theorem zeroAddressCode : Writes target zeroAddress fun _ _ code _ => code = tagCode ++ restCode target := by
  refine .bind (Q := fun _ t code _ => target = t ∧ code = []) (.readTarget fun _ => ⟨rfl, rfl⟩) ?_
  rintro _ _ _ _ ⟨rfl, rfl⟩
  refine .bind (.pushSmall 1024) ?_
  rintro _ _ _ _ ⟨rfl, -⟩
  refine .opThen (.opThen (.bind (.pushSmall 0) ?_))
  rintro _ _ _ _ ⟨rfl, -⟩
  exact .opThen (.opThen (.opThen (.op fun _ _ _ _ _ _ _ _ _ _ => rfl)))

theorem storeLeads {x : Word} {n : Int} {b : Builder} (fits : fitsUnsigned x n) (narrow : n ≤ 256)
    (room : withinLimits target.cell (b ++ .ofBits (Builder.wordBits x n.toNat))) (rest : List Value) :
    Leads target.cell [.simple .stU [n]] (.builder b :: .int x :: rest)
      (.builder (b ++ .ofBits (Builder.wordBits x n.toNat)) :: rest) := by
  refine .one fun root k => ?_
  change storeInt (fitsUnsigned · n) n _ = _
  exact storeIntOk fits narrow room

theorem tagLeads (fits : target.Fits) (rest : List Value) :
    Leads target.cell tagCode rest (.builder (.ofBits (true :: List.replicate 10 false)) :: rest) := by
  have room : withinLimits target.cell (.empty ++ .ofBits (Builder.wordBits 1024 (11 : Int).toNat)) :=
    ⟨.inr fits.tag, fits.refs⟩
  have stored := storeLeads (by decide) (by decide) room rest
  exact (Leads.push _).append ((freshLeads _ _).append stored)

theorem restLeads (fits : target.Fits) (makes : target.MakesAddress) (rest : List Value) :
    Leads target.cell (restCode target) (.builder (.ofBits (true :: List.replicate 10 false)) :: rest)
      (Ty.address.initial target :: rest) := by
  obtain ⟨least, most⟩ := makes
  have address := fits.address
  have size : (target.addressBits - 1).toNat = 10 + (target.addressBits - 11).toNat := by omega
  have whole : Builder.ofBits (true :: List.replicate 10 false) ++
      .ofBits (Builder.wordBits 0 (target.addressBits - 11).toNat) =
        .ofBits (true :: List.replicate (target.addressBits - 1).toNat false) := by
    rw [zeroBits (by omega), size, List.replicate_add]
    rfl
  have room : withinLimits target.cell (.ofBits (true :: List.replicate (target.addressBits - 1).toNat false)) := by
    refine ⟨.inr ?_, fits.refs⟩
    simp only [Builder.ofBits, List.length_cons, List.length_replicate, Target.cell]
    omega
  have stored := storeLeads (x := 0) ((fitsUnsignedIff _ _).2 (.inr ⟨by omega, by simp [valueCount]⟩)) (by omega)
    (whole ▸ room) rest
  rw [whole] at stored
  rw [Ty.initial]
  refine (Leads.push _).append (.cons _ (swapOk _ _ rest) (stored.append ?_))
  exact .cons (.cell (.mk _ []) :: rest) (fun _ _ => rfl) (.one fun _ _ => rfl)

theorem restHalts (short : ¬target.MakesAddress) (b : Builder) (rest : List Value) :
    Halts target.cell (restCode target) (.builder b :: rest) target.addressHalt := by
  have swapped : Leads target.cell [.pushInt (BitVec.ofInt 256 0), .simple .swap []] (.builder b :: rest)
      (.builder b :: .int 0 :: rest) := (Leads.push _).append (.one (swapOk _ _ rest))
  refine .after swapped ?_
  by_cases few : target.addressBits < 11
  · have refused : ¬fitsUnsigned 0 (target.addressBits - 11) := by
      rw [fitsUnsignedIff]
      omega
    have bad : ∀ root n, ∃ m, simple .stU [target.addressBits - 11]
        ⟨.builder b :: .int 0 :: rest, root, target.cell, n⟩ = .error (.fault .rangeCheck none) m :=
      fun root n => ⟨_, storeIntRefused refused b rest root n⟩
    rw [Target.addressHalt, if_pos few]
    exact .one bad _
  · have wide : 267 < target.addressBits := by
      unfold Target.MakesAddress at short
      omega
    have fits : fitsUnsigned 0 (target.addressBits - 11) := (fitsUnsignedIff _ _).2 (.inl (by omega))
    have past : 256 < target.addressBits - 11 := by omega
    have bad : ∀ root n, ∃ m, simple .stU [target.addressBits - 11]
        ⟨.builder b :: .int 0 :: rest, root, target.cell, n⟩ = .error .broken m :=
      fun root n => ⟨_, storeIntBreaks fits past b rest root n⟩
    rw [Target.addressHalt, if_neg few]
    exact .one bad _

namespace Fills

theorem nil (target : Target) : Fills target [] [] :=
  ⟨fun _ rest => .nil _ rest, nofun⟩

theorem cons {t : Ty} {types : List Ty} {a b : List Instr} (first : Fills target [t] a)
    (second : Fills target types b) :
    Fills target (t :: types) (a ++ b) := by
  have alone : Ty.holdAddress [t] = t.holdsAddress := by simp [Ty.holdAddress]
  constructor
  · intro makes rest
    have either : t.holdsAddress = true ∨ Ty.holdAddress types = true → target.MakesAddress := by
      simpa [Ty.holdAddress] using makes
    have one := first.leads (fun holds => either (.inl (alone ▸ holds))) rest
    have two := second.leads (fun holds => either (.inr holds)) (t.initial target :: rest)
    simpa [Ty.initials] using one.append two
  · intro holds short rest
    cases own : t.holdsAddress with
    | true => exact (first.halts (alone.trans own) short rest).append b
    | false =>
      have one := first.leads (fun holds => by simp [alone, own] at holds) rest
      refine .after one (second.halts ?_ short _)
      simpa [Ty.holdAddress, own] using holds

theorem plain {t : Ty} {code : List Instr} (none : t.holdsAddress = false)
    (h : ∀ rest, Leads target.cell code rest (t.initial target :: rest)) : Fills target [t] code :=
  ⟨fun _ rest => h rest, fun holds => by simp [Ty.holdAddress, none] at holds⟩

theorem group {t : Ty} {types : List Ty} {a b : List Instr} (group : t.parts? = some types)
    (members : Fills target types a)
    (packed : ∀ items rest : List Value, items.length = types.length →
      Leads target.cell b (items.reverse ++ rest) (.tuple items :: rest)) : Fills target [t] (a ++ b) := by
  have same : Ty.holdAddress [t] = Ty.holdAddress types := by simp [Ty.holdAddress, Ty.holdsGroup group]
  constructor
  · intro makes rest
    rw [same] at makes
    have whole := (members.leads makes rest).append (packed _ rest (Ty.initialsLength target types))
    simpa [Ty.initials, Ty.initialGroup group] using whole
  · intro holds short rest
    exact (members.halts (same ▸ holds) short rest).append b

end Fills

theorem zeroAddressFills (fits : target.Fits) :
    Writes target zeroAddress fun _ _ code _ => Fills target [.address] code := by
  refine zeroAddressCode.mono ?_
  rintro _ _ _ _ rfl
  constructor
  · intro makes rest
    exact (tagLeads fits rest).append (restLeads fits (makes rfl) rest)
  · intro _ short rest
    exact .after (tagLeads fits rest) (restHalts short _ rest)

theorem defaultsFill (fits : target.Fits) :
    (∀ t : Ty, Writes target (pushDefault t) fun _ _ code _ => Fills target [t] code) ∧
    ∀ types, Writes target (pushDefaults types) fun _ _ code _ => Fills target types code := by
  have ended {x : Emit Unit} {t : Ty} {d : Int} {construct : String}
      (h : Writes target x fun _ _ code _ => Fills target [t] code) :
      Writes target (x >>= fun _ => ensureDepth d construct) fun _ _ code _ => Fills target [t] code := by
    refine .bind h fun _ _ code _ filled => .ensureDepth fun _ => ?_
    rw [List.append_nil]
    exact filled
  have opened {t : Ty} {x : Int → Emit Unit} (h : ∀ d, Writes target (x d) fun _ _ code _ => Fills target [t] code) :
      Writes target (Emit.depth >>= x) fun _ _ code _ => Fills target [t] code := by
    refine .bind (Q := fun _ _ code _ => code = []) (.depth fun _ => rfl) ?_
    rintro _ d _ _ rfl
    exact (h d).mono fun _ _ _ _ filled _ => filled
  apply Ty.groupInduction
  · intro t single
    rw [pushDefault.eq_def]
    refine opened fun d => ?_
    cases t with
    | struct | tuple => cases single
    | integer | bool =>
      refine ended ((Writes.pushSmall 0).mono ?_)
      rintro _ _ _ _ ⟨rfl, -⟩
      exact .plain rfl fun rest => Leads.push _
    | mapping => exact ended (.op fun _ _ => .plain rfl fun rest => .one fun _ _ => rfl)
    | array =>
      refine ended (.bind (.pushSmall 0) ?_)
      rintro _ _ _ _ ⟨rfl, -⟩
      refine .opThen (.op fun _ _ _ _ => .plain rfl fun rest => (Leads.push _).append ?_)
      rw [Ty.initial]
      exact .cons (.null :: .int 0 :: rest) (fun _ _ => rfl) (.one fun _ _ => by simp [simple, Machine.tuple, onStack])
    | bytes | cell =>
      refine ended (.opThen (.op fun _ _ _ => .plain rfl fun rest => ?_))
      rw [Ty.initial]
      exact .cons (.builder .empty :: rest) (fun _ _ => rfl) (.one fun _ _ => rfl)
    | address => exact ended (zeroAddressFills fits)
    | named | other => exact ended .abort
  · intro t types group ih
    have tupled {d : Int} {construct : String} : Writes target (do
        pushDefaults types
        tuple types.length
        ensureDepth d construct) fun _ _ code _ => Fills target [t] code := by
      refine .bind ih fun _ _ a _ members => ?_
      refine .bind (tupleLeads target.cell types.length) fun _ _ b _ packed => .ensureDepth fun _ _ => ?_
      rw [List.append_nil]
      exact .group group members packed.2.2
    rw [pushDefault.eq_def]
    refine opened fun d => ?_
    cases t <;> cases group
    · exact tupled
    · exact tupled
  · simp only [pushDefaults]
    exact .pure fun _ => .nil target
  · intro t rest one others
    simp only [pushDefaults]
    refine .bind one fun _ _ a _ first => ?_
    exact others.mono fun _ _ b _ second _ => first.cons second

end Emit

theorem Record.defaultFills {target : Target} (fits : target.Fits) (r : Record) :
    Emit.Writes target (r.default false) fun _ _ code _ => Emit.Fills target [.tuple r.types] code := by
  refine .bind (Q := fun _ _ code _ => code = []) (.depth fun _ => rfl) ?_
  rintro _ _ _ _ rfl
  refine .bind ((Emit.defaultsFill fits).2 r.types) fun _ _ a _ members => ?_
  refine .bind (Emit.tupleLeads target.cell r.types.length) fun _ _ b _ packed => .ensureDepth fun _ _ _ => ?_
  rw [List.append_nil, List.nil_append]
  exact .group rfl members packed.2.2

end CellChain
