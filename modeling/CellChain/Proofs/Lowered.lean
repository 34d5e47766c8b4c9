import Mathlib
import CellChain.Program.Lower
import CellChain.Proofs.Emission
/-! The fragments of a lowered contract. Each is emitted for a public function, for the persistent fields or
for a struct in use, and each of these has all of its fragments. -/
namespace CellChain

namespace Lower

variable {target : Target}

def answers (target : Target) (f : Function) : Except Abort (List Fragment) :=
  if f.kind = .function then (encode target f).map ([·]) else .ok []

theorem functionsCons {f : Function} {rest : List Function} {fragments : List Fragment}
    (ok : functions target (f :: rest) = .ok fragments) (pub : f.isPublic = true) :
    ∃ d answer others, decode target f = .ok d ∧ answers target f = .ok answer ∧
      functions target rest = .ok others ∧ fragments = d :: answer ++ others := by
  rw [functions, if_pos pub] at ok
  obtain ⟨d, decoded, ok⟩ := okOfBind ok
  have joined : (answers target f >>= fun answer => functions target rest >>= fun others =>
      Except.ok (d :: answer ++ others)) = .ok fragments := by
    unfold answers
    split
    · rename_i ordinary
      rw [if_pos ordinary] at ok
      exact ok
    · rename_i entry
      rw [if_neg entry] at ok
      exact ok
  obtain ⟨answer, answered, ok⟩ := okOfBind joined
  obtain ⟨others, following, ok⟩ := okOfBind ok
  exact ⟨d, answer, others, decoded, answered, following, (Except.ok.inj ok).symm⟩

theorem answersOk {f : Function} {answer : List Fragment} (ok : answers target f = .ok answer) :
    f.kind = .function ∧ (∃ e, encode target f = .ok e ∧ answer = [e]) ∨ f.kind ≠ .function ∧ answer = [] := by
  unfold answers at ok
  split at ok
  · rename_i ordinary
    cases encoded : encode target f with
    | error fault => rw [encoded] at ok; cases ok
    | ok e =>
      rw [encoded] at ok
      cases ok
      exact .inl ⟨ordinary, e, rfl, rfl⟩
  · rename_i entry
    cases ok
    exact .inr ⟨entry, rfl⟩

theorem functionsEmit {fs : List Function} {fragments : List Fragment} (ok : functions target fs = .ok fragments)
    {f : Function} (mem : f ∈ fs) (pub : f.isPublic = true) :
    (∃ d ∈ fragments, decode target f = .ok d) ∧
      (f.kind = .function → ∃ e ∈ fragments, encode target f = .ok e) := by
  induction fs generalizing fragments with
  | nil => cases mem
  | cons g rest ih =>
    cases shown : g.isPublic with
    | false =>
      rcases List.mem_cons.1 mem with rfl | later
      · rw [pub] at shown; cases shown
      · rw [functions, shown] at ok
        exact ih ok later
    | true =>
      obtain ⟨d, answer, others, decoded, answered, following, rfl⟩ := functionsCons ok shown
      rcases List.mem_cons.1 mem with rfl | later
      · refine ⟨⟨d, by simp, decoded⟩, fun ordinary => ?_⟩
        rcases answersOk answered with ⟨-, e, encoded, rfl⟩ | ⟨entry, -⟩
        · exact ⟨e, by simp, encoded⟩
        · exact absurd ordinary entry
      · obtain ⟨⟨d', inside, decoded'⟩, answered'⟩ := ih following later
        refine ⟨⟨d', by simp [inside], decoded'⟩, fun ordinary => ?_⟩
        obtain ⟨e, inside', encoded⟩ := answered' ordinary
        exact ⟨e, by simp [inside'], encoded⟩

theorem functionsOnly {fs : List Function} {fragments : List Fragment} (ok : functions target fs = .ok fragments)
    {frag : Fragment} (mem : frag ∈ fragments) : ∃ f ∈ fs, f.isPublic = true ∧
      (decode target f = .ok frag ∨ f.kind = .function ∧ encode target f = .ok frag) := by
  induction fs generalizing fragments with
  | nil => cases ok; cases mem
  | cons f rest ih =>
    cases shown : f.isPublic with
    | false =>
      rw [functions, shown] at ok
      obtain ⟨g, inside, found⟩ := ih ok mem
      exact ⟨g, List.mem_cons_of_mem _ inside, found⟩
    | true =>
      obtain ⟨d, answer, others, decoded, answered, following, rfl⟩ := functionsCons ok shown
      rcases List.mem_append.1 mem with own | later
      · refine ⟨f, List.mem_cons_self .., shown, ?_⟩
        rcases List.mem_cons.1 own with rfl | own
        · exact .inl decoded
        · rcases answersOk answered with ⟨ordinary, e, encoded, rfl⟩ | ⟨-, rfl⟩
          · cases List.mem_singleton.1 own
            exact .inr ⟨ordinary, encoded⟩
          · cases own
      · obtain ⟨g, inside, found⟩ := ih following later
        exact ⟨g, List.mem_cons_of_mem _ inside, found⟩

def Encodable (name : String) (names : List String) (types : List Ty) : Prop :=
  (Ty.unencodable? (.struct name names types)).isSome = false

theorem structsCons (target : Target) (t : Ty) (rest : List Ty) :
    (∃ name names types, t = .struct name names types ∧ Encodable name names types ∧
      structs target (t :: rest) = helpers target name names types >>= fun own =>
        structs target rest >>= fun others => .ok (own ++ others)) ∨
    (∀ name names types, t = .struct name names types → ¬Encodable name names types) ∧
      structs target (t :: rest) = structs target rest := by
  cases t with
  | struct name names types =>
    cases shown : (Ty.unencodable? (.struct name names types)).isSome with
    | false => exact .inl ⟨name, names, types, rfl, shown, by rw [structs, shown]; rfl⟩
    | true =>
      refine .inr ⟨?_, by rw [structs, shown]; rfl⟩
      intro name' names' types' same
      cases same
      simp [Encodable, shown]
  | _ => exact .inr ⟨nofun, by rw [structs]; nofun⟩

theorem structsEmit {list : List Ty} {fragments : List Fragment} (ok : structs target list = .ok fragments)
    {name : String} {names : List String} {types : List Ty} (mem : .struct name names types ∈ list)
    (encodable : Encodable name names types) :
    ∃ own, helpers target name names types = .ok own ∧ ∀ frag ∈ own, frag ∈ fragments := by
  induction list generalizing fragments with
  | nil => cases mem
  | cons t rest ih =>
    rcases structsCons target t rest with ⟨name', names', types', rfl, -, opened⟩ | ⟨refused, opened⟩
    · rw [opened] at ok
      obtain ⟨own, made, ok⟩ := okOfBind ok
      obtain ⟨others, following, ok⟩ := okOfBind ok
      cases ok
      rcases List.mem_cons.1 mem with same | later
      · cases same
        exact ⟨own, made, fun frag inside => List.mem_append_left _ inside⟩
      · obtain ⟨own', made', inside⟩ := ih following later
        exact ⟨own', made', fun frag found => List.mem_append_right _ (inside frag found)⟩
    · rw [opened] at ok
      rcases List.mem_cons.1 mem with same | later
      · exact absurd encodable (refused _ _ _ same.symm)
      · exact ih ok later

theorem structsOnly {list : List Ty} {fragments : List Fragment} (ok : structs target list = .ok fragments)
    {frag : Fragment} (mem : frag ∈ fragments) : ∃ name names types own, .struct name names types ∈ list ∧
      Encodable name names types ∧ helpers target name names types = .ok own ∧ frag ∈ own := by
  induction list generalizing fragments with
  | nil => cases ok; cases mem
  | cons t rest ih =>
    rcases structsCons target t rest with ⟨name, names, types, rfl, encodable, opened⟩ | ⟨-, opened⟩
    · rw [opened] at ok
      obtain ⟨own, made, ok⟩ := okOfBind ok
      obtain ⟨others, following, ok⟩ := okOfBind ok
      cases ok
      rcases List.mem_append.1 mem with mine | later
      · exact ⟨name, names, types, own, List.mem_cons_self .., encodable, made, mine⟩
      · obtain ⟨name', names', types', own', inside, found⟩ := ih following later
        exact ⟨name', names', types', own', List.mem_cons_of_mem _ inside, found⟩
    · rw [opened] at ok
      obtain ⟨name', names', types', own', inside, found⟩ := ih ok mem
      exact ⟨name', names', types', own', List.mem_cons_of_mem _ inside, found⟩

theorem ofMembersOk {name : String} {names : List String} {types : List Ty} {r : Record}
    (ok : Record.ofMembers name names types = .ok r) : r = ⟨name, names, types⟩ := by
  obtain ⟨_, _, ok⟩ := okOfBind ok
  split at ok
  · cases ok
  · cases ok
    rfl

theorem recordCode {name : String} {names : List String} {types : List Ty} {depth : Int} {x : Record → Emit Unit}
    {code : List Instr}
    (ok : codeOf target depth (do x (← Emit.lift (Record.ofMembers name names types))) = .ok code) :
    codeOf target depth (x ⟨name, names, types⟩) = .ok code := by
  obtain ⟨p, emitted, finished⟩ := okOfBind ok
  obtain ⟨r, e, made, run⟩ := Emit.bindOk emitted
  cases found : Record.ofMembers name names types with
  | error fault => rw [found] at made; cases made
  | ok r' =>
    rw [found] at made
    cases made
    cases ofMembersOk found
    change (x _ (Emitter.start target depth) >>= fun p => p.2.code) = _
    rw [run]
    exact finished

theorem helpersOk {name : String} {names : List String} {types : List Ty} {own : List Fragment}
    (ok : helpers target name names types = .ok own) : ∃ default toBuilder ofSlice : List Instr,
      codeOf target 0 (Record.default ⟨Ty.text (.struct name names types), names, types⟩ false) = .ok default ∧
      codeOf target 1 (Record.toBuilder ⟨Ty.text (.struct name names types), names, types⟩) = .ok toBuilder ∧
      codeOf target 1 (Record.ofSlice ⟨Ty.text (.struct name names types), names, types⟩) = .ok ofSlice ∧
      own = [⟨name ++ "_default", .structDefault, 0, 0, 1, default⟩,
        ⟨name ++ "_to_builder", .structToBuilder, 0, 1, 1, toBuilder⟩,
        ⟨name ++ "_from_slice", .structOfSlice, 0, 1, 1, ofSlice⟩] := by
  obtain ⟨default, one, ok⟩ := okOfBind ok
  obtain ⟨toBuilder, two, ok⟩ := okOfBind ok
  obtain ⟨ofSlice, three, ok⟩ := okOfBind ok
  exact ⟨default, toBuilder, ofSlice, recordCode one, recordCode two, recordCode three, (Except.ok.inj ok).symm⟩

end Lower

theorem lowerParts {target : Target} {u : SourceUnit} {c : Contract} {program : Program}
    (ok : lower target u c = .ok program) : ∃ functions load store structs,
      Lower.functions target c.functions = .ok functions ∧ Lower.loadState target (u.stateMembers c) = .ok load ∧
      Lower.storeState target (u.stateMembers c) = .ok store ∧
      Lower.structs target (Lower.usedStructs u c) = .ok structs ∧
      program.fragments = functions ++ [load, store] ++ structs := by
  obtain ⟨functions, one, ok⟩ := okOfBind ok
  obtain ⟨load, two, ok⟩ := okOfBind ok
  obtain ⟨store, three, ok⟩ := okOfBind ok
  obtain ⟨structs, four, ok⟩ := okOfBind ok
  cases ok
  exact ⟨functions, load, store, structs, one, two, three, four, rfl⟩

end CellChain
