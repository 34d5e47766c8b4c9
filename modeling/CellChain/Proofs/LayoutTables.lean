import Mathlib
import CellChain.Command.Run
import CellChain.Proofs.PrintedTables
import CellChain.Proofs.ProgramRoundTrips
import CellChain.Proofs.WireLayout
/-! Layouts against runs. What the code that stores values leaves behind is laid out as the layout of the types
says. The table that is printed for a contract describes the root that its fields are kept in, and the one for a
function describes the messages that its parameters are read from. -/
namespace CellChain

open Machine

theorem Machine.Settles.ended {limits : Capacity} {code : List Instr} {before after : List Value}
    (h : Settles limits code before after) (sized : WordSized code) {root : Cell} {n : Nat} {m : Machine}
    (ran : run code ⟨before, root, limits, n⟩ = .ok () m) : ∃ k, m = ⟨after, root, limits, k⟩ := by
  by_cases small : Within code
  · obtain ⟨k, led⟩ := h.leads small root n
    rw [led] at ran
    cases ran
    exact ⟨k, rfl⟩
  · simp only [Within, not_forall, not_le] at small
    obtain ⟨count, inside, large⟩ := small
    obtain ⟨why, m', bad, -⟩ := h.trips ⟨⟨count, inside, large⟩, sized⟩ root n
    rw [bad] at ran
    cases ran

def StoresLaid (target : Target) (offset : Int) (types : List Ty) (entries : List LayoutEntry) (code : List Instr) :
    Prop :=
  WordSized code → Ty.Counted target offset types →
    ∀ (vs : List Value) (b : Builder) (rest : List Value) (root : Cell) (n : Nat) (m : Machine),
      HaveTypes target types vs → (b.bits.length : Int) = offset → b.refs = [] →
    run code ⟨.builder b :: (vs ++ rest), root, target.cell, n⟩ = .ok () m →
    ∃ b' cells, m.stack = .builder b' :: rest ∧ cells[0]? = some b'.finish ∧
      Laid 0 b entries (leafValuesAll types vs) cells

def StateLaid (target : Target) (u : SourceUnit) (c : Contract) (entries : List LayoutEntry) (program : Program) :
    Prop :=
  ∃ store ∈ program.fragments, store.name = "c7_to_c4" ∧ Lower.storeState target (u.stateMembers c) = .ok store ∧
    (WordSized store.code → Ty.Counted target 0 ((u.stateMembers c).map Prod.snd) →
      ∀ (vs rest : List Value) (old : Cell) (n : Nat) (m : Machine),
        HaveTypes target ((u.stateMembers c).map Prod.snd) vs →
      run store.code ⟨vs.reverse ++ rest, old, target.cell, n⟩ = .ok () m →
      m.stack = rest ∧ ∃ cells, cells[0]? = some m.root ∧
        Laid 0 .empty entries (leafValuesAll ((u.stateMembers c).map Prod.snd) vs) cells)

def ParametersLaid (target : Target) (f : Function) (entries : List LayoutEntry) (program : Program) : Prop :=
  ∃ decode ∈ program.fragments, Lower.decode target f = .ok decode ∧
    (Ty.Counted target Lower.functionIdBits (Lower.types f.params) →
      ∀ (vs : List Value) (identifier : List Bool), HaveTypes target (Lower.types f.params) vs →
      identifier.length = 32 → ∃ root more vs', Value.sameAll vs' vs = true ∧
        Laid 0 (.ofBits identifier) entries (leafValuesAll (Lower.types f.params) vs) (root :: more) ∧
        (∀ cells, Laid 0 (.ofBits identifier) entries (leafValuesAll (Lower.types f.params) vs) cells →
          cells = root :: more) ∧
        ∀ rest, Leads target.cell decode.code (.slice (.ofCell root) :: rest) (vs'.reverse ++ rest))

variable {target : Target} {u : SourceUnit} {c : Contract} {program : Program} {entries : List LayoutEntry}

theorem storedLaid {offset : Int} {names others : List String} {types : List Ty} (refs : 2 ≤ target.cellRefs)
    (ok : layout target offset names types = .ok entries) {p q : Position}
    (begun : Position.start target offset others types target.cell = .ok p) {e e' : Emitter} (same : e.target = target)
    (emitted : Emit.storeValues types p e = .ok (q, e')) :
    ∃ code, e' = e.write code e'.depth ∧ StoresLaid target offset types entries code := by
  obtain ⟨-, -, -, -, -, listed⟩ := Position.startOk begun
  obtain ⟨code, _, written, marks, stored⟩ := Emit.storeValuesStored target.cell listed e q e' same emitted
  refine ⟨code, by rw [written]; rfl, ?_⟩
  intro sized counted vs b rest root n m typed size bare ran
  have holds := startHolds begun refs counted typed size bare
  obtain ⟨k, rfl⟩ := (stored.settles vs b rest typed holds).ended sized ran
  obtain ⟨cells, first, laid⟩ := layoutLaid ok begun stored.placed counted typed size
  exact ⟨_, cells, rfl, first, laid⟩

theorem stateLaid (refs : 2 ≤ target.cellRefs) (lowered : lower target u c = .ok program)
    (ok : layout target 0 ((u.stateMembers c).map Prod.fst) ((u.stateMembers c).map Prod.snd) = .ok entries) :
    StateLaid target u c entries program := by
  obtain ⟨functions, load, store, structs, -, -, stored, -, parts⟩ := lowerParts lowered
  obtain ⟨p, marks, code, shape, begun, assembles⟩ := Lower.storeStateAssembles stored
  have named : store.name = "c7_to_c4" := by
    obtain ⟨_, -, made⟩ := okOfBind stored
    cases made
    rfl
  refine ⟨store, by simp [parts], named, stored, ?_⟩
  intro sized counted vs rest old n m typed ran
  rw [shape] at sized ran
  have inner : WordSized code := fun k inside => sized k (by simp [inside])
  rw [runAppend] at ran
  cases first : run code ⟨vs.reverse ++ rest, old, target.cell, n⟩ with
  | error why m' => rw [bindOfError first] at ran; cases ran
  | ok _ m' =>
    have behind : Ty.Counted target p.bits ((u.stateMembers c).map Prod.snd) := by
      rw [(Position.startOk begun).2.2.2.1]
      exact counted
    obtain ⟨k, rfl⟩ := (assembles.settles refs behind vs rest typed).ended inner first
    rw [bindOfOk first, runPopRoot] at ran
    cases ran
    have none : (Builder.empty.bits.length : Int) = 0 := rfl
    obtain ⟨cells, found, laid⟩ := layoutLaid ok begun assembles.placed counted typed none
    exact ⟨rfl, cells, found, laid⟩

theorem parametersLaid (lowered : lower target u c = .ok program) {f : Function} (mem : f ∈ c.functions)
    (pub : f.isPublic = true) {names : List String}
    (ok : layout target Lower.functionIdBits names (Lower.types f.params) = .ok entries) :
    ParametersLaid target f entries program := by
  obtain ⟨functions, load, store, structs, emitted, -, -, -, parts⟩ := lowerParts lowered
  obtain ⟨decode, inside, decoded⟩ := (Lower.functionsEmit emitted mem pub).1
  refine ⟨decode, by simp [parts, inside], decoded, ?_⟩
  obtain ⟨code, decodeCode, made⟩ := okOfBind decoded
  cases made
  obtain ⟨p, marks, inner, rfl, begun, apart⟩ := Lower.decodeDisassembles decodeCode
  intro counted vs identifier typed size
  have width : ((Builder.ofBits identifier).bits.length : Int) = Lower.functionIdBits := by
    change (identifier.length : Int) = 32
    omega
  obtain ⟨cells, first, laid⟩ := layoutLaid ok begun apart.placed counted typed width
  cases cells with
  | nil => cases first
  | cons root more =>
    cases first
    refine ⟨_, more, Value.rereadAll vs, Value.rereadAllSame vs, laid, fun cells other => other.unique laid, ?_⟩
    intro rest
    have front (w : Builder) : (Slice.ofCell (.ofBits identifier ++ w).finish).unread = .ofBits identifier ++ w := rfl
    obtain ⟨s, after, skipped⟩ := Lower.skipLeads width (front _) target.cell rest
    exact skipped.append (apart.leads vs s rest typed after)

theorem Settings.loadValid {w : Workspace} {path : String} {settings : Settings}
    (ok : Settings.load w path = .ok settings) : settings.validate = .ok () := by
  obtain ⟨_, -, ok⟩ := okOfBind ok
  obtain ⟨s, -, ok⟩ := okOfBind ok
  obtain ⟨_, valid, ok⟩ := okOfBind ok
  cases ok
  cases checked : settings.validate with
  | error fault => rw [checked] at valid; cases valid
  | ok _ => rfl

namespace Command

theorem jobOk {α β : Type} {x : Job α} {f : α → Job β} {s s' : State} {b : β} (ok : (x >>= f) s = .ok b s') :
    ∃ a middle, x s = .ok a middle ∧ f a middle = .ok b s' := by
  cases first : x s with
  | error e middle => simp only [bind, EStateM.bind, first, reduceCtorEq] at ok
  | ok a middle =>
    simp only [bind, EStateM.bind, first] at ok
    exact ⟨a, middle, rfl, ok⟩

theorem orFailOk {ε α : Type} {failure : ε → Failure} {x : Except ε α} {s s' : State} {a : α}
    (ok : orFail failure x s = .ok a s') : x = .ok a ∧ s' = s := by
  cases x with
  | error e => cases ok
  | ok v => cases ok; exact ⟨rfl, rfl⟩

theorem readSettingsOk {r : Request} {s s' : State} {settings : Settings}
    (ok : readSettings r s = .ok settings s') : settings.validate = .ok () ∧ s' = s := by
  unfold readSettings at ok
  split at ok
  · cases ok
    exact ⟨rfl, rfl⟩
  · obtain ⟨seen, _, got, ok⟩ := jobOk ok
    cases got
    obtain ⟨loaded, rfl⟩ := orFailOk ok
    exact ⟨Settings.loadValid loaded, rfl⟩

theorem startOk {r : Request} {s s' : State} {settings : Settings} {u : SourceUnit}
    (ok : start r s = .ok (settings, u) s') : settings.validate = .ok () ∧ s'.output = s.output := by
  obtain ⟨known, seen, read, work⟩ := jobOk ok
  obtain ⟨valid, rfl⟩ := readSettingsOk read
  rcases listed : r.words with _ | ⟨path, _ | _⟩ <;> simp only [listed] at work
  · cases work
  · obtain ⟨_, _, got, opened⟩ := jobOk work
    cases got
    obtain ⟨unit, _, loaded, dumped⟩ := jobOk opened
    obtain ⟨-, rfl⟩ := orFailOk loaded
    cases debug : r.debug <;> simp only [debug, if_true, if_false, Bool.false_eq_true] at dumped
    · cases dumped
      exact ⟨valid, rfl⟩
    · obtain ⟨_, _, changed, last⟩ := jobOk dumped
      cases changed
      cases last
      exact ⟨valid, rfl⟩
  · cases work

theorem layoutContractOk {u : SourceUnit} {name : String} {s s' : State} {c : Contract}
    (ok : layoutContract u name s = .ok c s') : s' = s := by
  unfold layoutContract at ok
  simp only [pure_bind] at ok
  split at ok
  · cases chosen : u.contract? name <;> simp only [chosen] at ok <;> cases ok
    rfl
  · cases last : u.contracts.getLast? <;> simp only [last] at ok
    · cases ok
    · rename_i d
      cases chosen : u.contract? d.name <;> simp only [chosen] at ok <;> cases ok
      rfl

theorem layoutMembersOk {u : SourceUnit} {c : Contract} {function : String} {s s' : State}
    {members : List (String × Ty)} {offset : Int} (ok : layoutMembers u c function s = .ok (members, offset) s') :
    s' = s ∧ (function = "" ∧ members = u.stateMembers c ∧ offset = 0 ∨
      function ≠ "" ∧ ∃ f, c.functions.find? (·.name == function) = some f ∧
        members = f.params.map (fun p => (p.name, p.type)) ∧ offset = Lower.functionIdBits) := by
  unfold layoutMembers at ok
  split at ok
  · rename_i state
    cases ok
    exact ⟨rfl, .inl ⟨state, rfl, rfl⟩⟩
  · rename_i named
    cases found : c.functions.find? (·.name == function) <;> simp only [found] at ok <;> cases ok
    exact ⟨rfl, .inr ⟨named, _, rfl, rfl, rfl⟩⟩

theorem showLayoutOk {r : Request} {contract function : String} {s s' : State}
    (ok : showLayout r contract function s = .ok () s') : ∃ settings u middle c members offset entries,
      start r s = .ok (settings, u) middle ∧ layoutContract u contract middle = .ok c middle ∧
      layoutMembers u c function middle = .ok (members, offset) middle ∧
      layout settings.vm offset (members.map Prod.fst) (members.map Prod.snd) = .ok entries ∧
      s'.output = middle.output ++ Text.Grid.render layoutHeadings (entries.map layoutRow) := by
  obtain ⟨⟨settings, u⟩, middle, begun, afterStart⟩ := jobOk ok
  obtain ⟨c, kept, chosen, afterContract⟩ := jobOk afterStart
  cases layoutContractOk chosen
  obtain ⟨⟨members, offset⟩, same, listed, afterMembers⟩ := jobOk afterContract
  cases (layoutMembersOk listed).1
  simp only [List.unzip_eq_map] at afterMembers
  obtain ⟨entries, last, placed, shown⟩ := jobOk afterMembers
  obtain ⟨laid, rfl⟩ := orFailOk placed
  cases shown
  exact ⟨settings, u, _, c, members, offset, entries, begun, chosen, listed, laid, rfl⟩

end Command

/- The table that a command line prints, and what the fragments of the contract do with the bits that it names. -/
structure TableHolds (w : Workspace) (words : List String) (r : Command.Request) (contract function : String)
    (settings : Settings) (u : SourceUnit) (c : Contract) (entries : List LayoutEntry) : Prop where
  read : ∃ s, Command.start r { workspace := w } = .ok (settings, u) s ∧ Command.layoutContract u contract s = .ok c s
  valid : settings.validate = .ok ()
  printed : (Command.run w words).state.output =
    Text.Grid.render Command.layoutHeadings (entries.map Command.layoutRow)
  shown : Text.Grid.Shows ["MEMBER", "TYPE", "CELL", "BIT OFFSET", "BITS", "REFS"]
    (entries.map fun e =>
      [e.path, e.type.text, toString e.cell, toString e.bitOffset, toString e.bits, toString e.refs])
    (Command.run w words).state.output
  state : function = "" →
    layout settings.vm 0 ((u.stateMembers c).map Prod.fst) ((u.stateMembers c).map Prod.snd) = .ok entries ∧
    ∀ program, lower settings.vm u c = .ok program → StateLaid settings.vm u c entries program
  parameters : function ≠ "" → ∃ f, c.functions.find? (·.name == function) = some f ∧
    layout settings.vm Lower.functionIdBits (f.params.map (·.name)) (Lower.types f.params) = .ok entries ∧
    (f.isPublic = true → ∀ program, lower settings.vm u c = .ok program →
      ParametersLaid settings.vm f entries program)

theorem tableHolds {w : Workspace} {words : List String} {r : Command.Request} {contract function : String}
    (parsed : Command.parse words = .ok r) (asked : r.action = .layout contract function)
    (ended : (Command.run w words).failure = none) : ∃ settings u c entries,
      TableHolds w words r contract function settings u c entries := by
  cases done : Command.showLayout r contract function { workspace := w } with
  | error f s => simp [Command.run, parsed, Command.perform, asked, done] at ended
  | ok _ s =>
    have ran : Command.run w words = ⟨s, none⟩ := by simp only [Command.run, parsed, Command.perform, asked, done]
    obtain ⟨settings, u, middle, c, members, offset, entries, begun, chosen, listed, laid, output⟩ :=
      Command.showLayoutOk done
    obtain ⟨valid, quiet⟩ := Command.startOk begun
    obtain ⟨-, kind⟩ := Command.layoutMembersOk listed
    have printed : (Command.run w words).state.output =
        Text.Grid.render Command.layoutHeadings (entries.map Command.layoutRow) := by
      rw [ran, output, quiet]
      rfl
    refine ⟨settings, u, c, entries, ⟨middle, begun, chosen⟩, valid, printed, ?_, ?_, ?_⟩
    · rw [printed]
      refine Text.Grid.renderShows fun row inside => ?_
      obtain ⟨e, -, rfl⟩ := List.mem_map.1 inside
      rfl
    · intro state
      rcases kind with ⟨-, rfl, rfl⟩ | ⟨named, -⟩
      · exact ⟨laid, fun program lowered => stateLaid (Settings.validRefs valid) lowered laid⟩
      · exact absurd state named
    · intro named
      rcases kind with ⟨state, -⟩ | ⟨-, f, found, rfl, rfl⟩
      · exact absurd state named
      · rw [List.map_map, List.map_map] at laid
        refine ⟨f, found, laid, fun pub program lowered => ?_⟩
        exact parametersLaid lowered (List.mem_of_find?_eq_some found) pub laid

theorem layoutTellsWire :
    (∀ settings : Settings, settings.validate = .ok () → ∀ offset names types entries,
      layout settings.vm offset names types = .ok entries → ∀ others p q e e',
      Position.start settings.vm offset others types settings.vm.cell = .ok p → e.target = settings.vm →
      Emit.storeValues types p e = .ok (q, e') →
      ∃ code, e' = e.write code e'.depth ∧ StoresLaid settings.vm offset types entries code) ∧
    ∀ w words r contract function, Command.parse words = .ok r → r.action = .layout contract function →
      (Command.run w words).failure = none → ∃ settings u c entries,
        TableHolds w words r contract function settings u c entries := by
  constructor
  · intro settings valid offset names types entries ok others p q e e' begun same emitted
    exact storedLaid (Settings.validRefs valid) ok begun same emitted
  · intro w words r contract function parsed asked ended
    exact tableHolds parsed asked ended

def onesHead : Builder := ⟨List.replicate 32 true, []⟩

def oneAddress : Workspace :=
  ⟨"/one", [("main", "contracts: [\x7bname: One, state: [\x7bname: to, type: address\x7d]\x7d]\n")]⟩

def runEnds (code : List Instr) (s : List Value) : Bool :=
  match run code ⟨s, .mk [] [], ⟨1023, 4⟩, 0⟩ with
  | .ok _ _ => true
  | .error _ _ => false

theorem fourAddressesTold :
    (∃ entries p s m, layout {} 32 [] fourAddresses = .ok entries ∧ Position.ofTypes {} 32 fourAddresses = .ok p ∧
      Emit.storeValues fourAddresses p (Emitter.start {} 4) = .ok s ∧
      entries.map LayoutEntry.cell = [0, 0, 0, 0, 1] ∧
      run s.2.block.code ⟨.builder onesHead :: (fourZeros ++ []), .mk [] [], ⟨1023, 4⟩, 0⟩ = .ok () m ∧
      ∃ b' cells, m.stack = [.builder b'] ∧ cells[0]? = some b'.finish ∧
        Laid 0 onesHead entries (leafValuesAll fourAddresses fourZeros) cells) ∧
    ∃ r settings u c entries, Command.parse ["layout", "main"] = .ok r ∧
      TableHolds oneAddress ["layout", "main"] r "" "" settings u c entries := by
  constructor
  · have emitted : (do
        let entries ← layout {} 32 [] fourAddresses
        let p ← Position.ofTypes {} 32 fourAddresses
        let s ← Emit.storeValues fourAddresses p (Emitter.start {} 4)
        .ok (entries.map LayoutEntry.cell, decide (WordSized s.2.block.code),
          runEnds s.2.block.code (.builder onesHead :: (fourZeros ++ [])))).toOption =
        some ([0, 0, 0, 0, 1], true, true) := by
      decide +kernel
    obtain ⟨entries, placed, emitted⟩ := okOfBind (okOfOption emitted)
    obtain ⟨p, begun, emitted⟩ := okOfBind emitted
    obtain ⟨s, stored, emitted⟩ := okOfBind emitted
    simp only [Except.ok.injEq, Prod.mk.injEq, decide_eq_true_eq] at emitted
    obtain ⟨numbers, sized, ended⟩ := emitted
    obtain ⟨code, written, laid⟩ := layoutTellsWire.1 {} rfl 32 [] fourAddresses entries placed _ p s.1 _ s.2 begun
      rfl stored
    have same : s.2.block.code = code := by
      rw [written]
      rfl
    rw [same] at sized ended
    cases ran : run code ⟨.builder onesHead :: (fourZeros ++ []), .mk [] [], ⟨1023, 4⟩, 0⟩ with
    | error why m => rw [runEnds, ran] at ended; cases ended
    | ok _ m =>
      have zero : HasType {} .address zeroSlice := .address (by decide +kernel) rfl
      have typed : HaveTypes {} fourAddresses fourZeros :=
        .cons zero (.cons zero (.cons (.tuple (.cons (.bool (.inr rfl)) (.cons zero (.cons zero .nil)))) .nil))
      refine ⟨entries, p, s, m, placed, begun, stored, numbers, by rw [same]; exact ran, ?_⟩
      exact laid sized ⟨by decide, by decide⟩ fourZeros onesHead [] (.mk [] []) 0 m typed rfl rfl ran
  · have asked : (match Command.parse ["layout", "main"] with
        | .ok r => match r.action with
          | .layout contract function => contract == "" && function == ""
          | _ => false
        | .error _ => false) = true := by decide +kernel
    have ended : (Command.run oneAddress ["layout", "main"]).failure.isNone = true := by decide +kernel
    cases parsed : Command.parse ["layout", "main"] with
    | error e => simp [parsed] at asked
    | ok r =>
      cases action : r.action with
      | layout contract function =>
        simp only [parsed, action, Bool.and_eq_true, beq_iff_eq] at asked
        obtain ⟨rfl, rfl⟩ := asked
        obtain ⟨settings, u, c, entries, holds⟩ :=
          layoutTellsWire.2 oneAddress ["layout", "main"] r "" "" parsed action (Option.isNone_iff_eq_none.1 ended)
        exact ⟨r, settings, u, c, entries, rfl, holds⟩
      | _ => simp [parsed, action] at asked

end CellChain
