import Mathlib
import CellChain.Proofs.CodecCompletion
import CellChain.Proofs.Fragments
/-! Fragments that can be emitted. Each kind of fragment comes about when its types can be coded, and its code
takes the modelled depth from the declared arguments to the declared results. -/
namespace CellChain

open Emit

variable {target : Target} {d : Int}

structure Codable (target : Target) (types : List Ty) : Prop where
  encodable : Ty.firstUnencodable? types = none
  narrow : (Ty.widestAll types : Int) ≤ maxTupleSize
  roomy : Position.Roomy target.cell (Ty.sizesAll target types)

theorem Codable.start {types : List Ty} (codable : Codable target types) (names : List String) {offset : Int}
    (inside : 0 ≤ offset ∧ offset ≤ target.cellBits) :
    ∃ p, Position.start target offset names types target.cell = .ok p ∧ p.sizes = Ty.sizesAll target types ∧
      ∃ marks q, p.Placed marks q ∧ q.done = true := by
  obtain ⟨p, begun, -⟩ := Position.startSucceeds target target.cell names inside codable.encodable
  obtain ⟨-, -, capacity, -, -, sizes⟩ := Position.startOk begun
  refine ⟨p, begun, sizes, Position.Roomy.walks ?_⟩
  rw [capacity, sizes]
  exact codable.roomy

namespace Emit

theorem emptyArrayCompletes (low : 0 ≤ d) : Completes target d emptyArray fun _ d' => d' = d + 1 :=
  .pushThen (.opThen rfl (by omega) (.op rfl (by omega) (by omega))) low

theorem emptyCellCompletes (low : 0 ≤ d) : Completes target d emptyCell fun _ d' => d' = d + 1 :=
  .opThen rfl low (.op rfl (by omega) (by omega))

theorem zeroAddressCompletes (low : 0 ≤ d) : Completes target d zeroAddress fun _ d' => d' = d + 1 :=
  .targetThen (.pushThen (.opThen rfl (by omega) (.opThen rfl (by omega) (.pushThen (.opThen rfl (by omega)
    (.opThen rfl (by omega) (.opThen rfl (by omega) (.op rfl (by omega) (by omega))))) (by omega)))) low)

theorem defaultsComplete (target : Target) :
    (∀ (t : Ty) (d : Int), t.unencodable? = none → (t.widest : Int) ≤ maxTupleSize → 0 ≤ d →
      Completes target d (pushDefault t) fun _ d' => d' = d + 1) ∧
    ∀ (types : List Ty) (d : Int), Ty.firstUnencodable? types = none → (Ty.widestAll types : Int) ≤ maxTupleSize →
      0 ≤ d → Completes target d (pushDefaults types) fun _ d' => d' = d + types.length := by
  have ended {x : Emit Unit} {d : Int} {construct : String} (h : Completes target d x fun _ d' => d' = d + 1) :
      Completes target d (x >>= fun _ => ensureDepth (d + 1) construct) fun _ d' => d' = d + 1 :=
    .andThen h fun _ => .ensureDepth rfl
  apply Ty.groupInduction
  · intro t single d encodable _ low
    rw [pushDefault.eq_def]
    refine .depthThen ?_
    cases t with
    | struct | tuple => cases single
    | integer | bool => exact ended (.pushSmall low)
    | mapping => exact ended (.op rfl low (by omega))
    | array => exact ended (emptyArrayCompletes low)
    | bytes | cell => exact ended (emptyCellCompletes low)
    | address => exact ended (zeroAddressCompletes low)
    | named | other => simp [Ty.unencodable?, Ty.leafSize?] at encodable
  · intro t types group ih d encodable narrow low
    rw [Ty.widestGroup group] at narrow
    rw [Ty.unencodableGroup group] at encodable
    have tupled (construct : String) : Completes target d (do
        pushDefaults types
        tuple types.length
        ensureDepth (d + 1) construct) fun _ d' => d' = d + 1 := by
      refine .bind (ih d encodable (by omega) low) ?_
      intro _ m pushed
      refine .bind (tupleCompletes (by omega) (by omega) (by omega)) ?_
      intro _ m' packed
      exact .ensureDepth (by omega)
    rw [pushDefault.eq_def]
    refine .depthThen ?_
    cases t <;> cases group
    · exact tupled _
    · exact tupled _
  · intro d _ _ _
    simp only [pushDefaults]
    exact .pure (by simp)
  · intro t rest one others d encodable narrow low
    rw [Ty.firstUnencodableCons] at encodable
    simp only [Ty.widestAll] at narrow
    simp only [pushDefaults]
    refine .bind (one d encodable.1 (by omega) low) ?_
    intro _ m pushed
    refine (others m encodable.2 (by omega) (by omega)).mono ?_
    intro _ d' last
    simp only [List.length_cons]
    omega

theorem storeFromCompletes {offset : Int} {names : List String} {types : List Ty} (codable : Codable target types)
    (inside : 0 ≤ offset ∧ offset ≤ target.cellBits) (enough : (types.length : Int) + 1 ≤ d) :
    Completes target d (Lower.storeFrom target offset names types) fun _ d' => d' = d - types.length := by
  obtain ⟨p, begun, sizes, walk⟩ := codable.start names inside
  refine .liftThen begun ((storeValuesComplete codable.encodable codable.narrow sizes walk enough).mono ?_)
  rintro _ d' ⟨stored, -⟩
  exact stored

theorem loadFromCompletes {offset : Int} {names : List String} {types : List Ty} {f : Emit Unit}
    {R : Unit → Int → Prop} (codable : Codable target types) (inside : 0 ≤ offset ∧ offset ≤ target.cellBits)
    (enough : 1 ≤ d) (rest : Completes target (d - 1 + types.length) f R) :
    Completes target d (do
      let p ← lift (Position.start target offset names types target.cell)
      let _ ← loadValues types p
      endSlice
      f) R := by
  obtain ⟨p, begun, sizes, walk⟩ := codable.start names inside
  refine .liftThen begun (.bind (loadValuesComplete codable.encodable codable.narrow sizes walk enough) ?_)
  rintro _ m ⟨loaded, -⟩
  have used : m + (0 - 1) = d - 1 + types.length := by omega
  refine .opThen rfl (by omega) ?_
  rw [used]
  exact rest

end Emit

namespace Record

theorem defaultCompletes {r : Record} (codable : Codable target r.types)
    (few : (r.types.length : Int) ≤ maxTupleSize) (low : 0 ≤ d) :
    Completes target d (r.default false) fun _ d' => d' = d + 1 := by
  refine .depthThen (.bind ((defaultsComplete target).2 r.types d codable.encodable codable.narrow low) ?_)
  intro _ m pushed
  refine .bind (tupleCompletes (by omega) few (by omega)) ?_
  intro _ m' packed
  exact .ensureDepth (by omega)

theorem conversionCompletes {r : Record} (codable : Codable target r.types) (room : 0 ≤ target.cellBits)
    (few : (r.types.length : Int) ≤ maxTupleSize) (enough : 1 ≤ d) :
    Completes target d (r.conversion target) fun _ d' => d' = d - 1 + 1 := by
  refine .bind (untupleCompletes (by omega) few enough) ?_
  intro _ m spread
  refine .bind (arrangeCompletes (by omega)) ?_
  intro _ m' turned
  refine .opThen rfl (by omega) ((storeFromCompletes codable ⟨le_rfl, room⟩ (by omega)).mono ?_)
  intro _ d' stored
  omega

theorem toBuilderCompletes {r : Record} (codable : Codable target r.types) (room : 0 ≤ target.cellBits)
    (few : (r.types.length : Int) ≤ maxTupleSize) (enough : 1 ≤ d) :
    Completes target d r.toBuilder fun _ d' => d' = d := by
  rw [toBuilderConversion]
  refine .depthThen (.targetThen (.bind (.called enough (conversionCompletes codable room few enough)) ?_))
  intro _ m after
  exact .ensureDepth (by omega)

theorem ofSliceCompletes {r : Record} (codable : Codable target r.types) (room : 0 ≤ target.cellBits)
    (few : (r.types.length : Int) ≤ maxTupleSize) (enough : 1 ≤ d) :
    Completes target d r.ofSlice fun _ d' => d' = d := by
  refine .depthThen (.targetThen (loadFromCompletes codable ⟨le_rfl, room⟩ enough ?_))
  refine .bind (tupleCompletes (by omega) few (by omega)) ?_
  intro _ m packed
  exact .ensureDepth (by omega)

end Record

def Fragment.Balanced (frag : Fragment) : Prop := codeDepth? frag.code frag.args = some frag.rets

namespace Lower

theorem codeOfCompletes {x : Emit Unit} {depth after : Int}
    (h : Completes target depth x fun _ d' => d' = after) :
    ∃ code, codeOf target depth x = .ok code ∧ codeDepth? code depth = some after := by
  obtain ⟨_, code, d', ok, traced, rfl⟩ := h (Emitter.start target depth) rfl rfl
  refine ⟨code, ?_, traced⟩
  change (x (Emitter.start target depth) >>= fun p => p.2.code) = _
  rw [ok]
  rfl

theorem decodeCompletes {f : Function} (codable : Codable target (types f.params))
    (room : functionIdBits ≤ target.cellBits) : ∃ frag, decode target f = .ok frag ∧ frag.Balanced := by
  have count : ((types f.params).length : Int) = f.params.length := by simp [types]
  have whole : Completes target 1 (do
      op .ldU [functionIdBits]
      nip
      let p ← lift (Position.start target functionIdBits (names f.params) (types f.params) target.cell)
      let _ ← loadValues (types f.params) p
      endSlice
      ensureDepth f.params.length (fragmentName f ++ " decode")) fun _ d' => d' = f.params.length := by
    apply Completes.opThen rfl le_rfl
    apply Completes.opThen rfl (by decide)
    apply loadFromCompletes codable ⟨by decide, room⟩ (by decide)
    rw [count]
    exact .ensureDepth (by omega)
  obtain ⟨code, emitted, balanced⟩ := codeOfCompletes whole
  refine ⟨⟨fragmentName f ++ "_decode", .decode, f.id, 1, f.params.length, code⟩, ?_, balanced⟩
  unfold decode decodeCode
  rw [emitted]
  rfl

theorem encodeCompletes {f : Function} (codable : Codable target (types f.returns))
    (room : functionIdBits ≤ target.cellBits) : ∃ frag, encode target f = .ok frag ∧ frag.Balanced := by
  have count : ((types f.returns).length : Int) = f.returns.length := by simp [types]
  have whole : Completes target f.returns.length (do
      arrange f.returns.length
      answerBody target f) fun _ d' => d' = 1 := by
    apply Completes.bind (arrangeCompletes le_rfl)
    intro _ m turned
    apply Completes.opThen rfl (by omega)
    apply Completes.pushThen _ (by omega)
    apply Completes.opThen rfl (by omega)
    apply Completes.opThen rfl (by omega)
    apply Completes.bind (storeFromCompletes codable ⟨by decide, room⟩ (by omega))
    intro _ m' stored
    apply Completes.opThen rfl (by omega)
    exact .ensureDepth (by omega)
  obtain ⟨code, emitted, balanced⟩ := codeOfCompletes whole
  refine ⟨⟨fragmentName f ++ "_encode", .encode, f.id ||| answerBit, f.returns.length, 1, code⟩, ?_, balanced⟩
  unfold encode
  rw [encodeArranged, emitted]
  rfl

theorem loadStateCompletes {members : List (String × Ty)} (codable : Codable target (members.map Prod.snd))
    (room : 0 ≤ target.cellBits) : ∃ frag, loadState target members = .ok frag ∧ frag.Balanced := by
  unfold loadState
  simp only [List.unzip_eq_map]
  generalize members.map Prod.fst = names, members.map Prod.snd = types at *
  have whole : Completes target 0 (do
      pushRoot
      toSlice
      let p ← lift (Position.start target 0 names types target.cell)
      let _ ← loadValues types p
      endSlice
      ensureDepth types.length "c4_to_c7") fun _ d' => d' = types.length := by
    apply Completes.opThen rfl le_rfl
    apply Completes.opThen rfl (by decide)
    apply loadFromCompletes codable ⟨le_rfl, room⟩ (by decide)
    exact .ensureDepth (by omega)
  obtain ⟨code, emitted, balanced⟩ := codeOfCompletes whole
  refine ⟨⟨"c4_to_c7", .loadState, 0, 0, types.length, code⟩, ?_, balanced⟩
  rw [emitted]
  rfl

theorem storeStateCompletes {members : List (String × Ty)} (codable : Codable target (members.map Prod.snd))
    (room : 0 ≤ target.cellBits) : ∃ frag, storeState target members = .ok frag ∧ frag.Balanced := by
  rw [storeStateArranged]
  generalize members.map Prod.fst = names, members.map Prod.snd = types at *
  have whole : Completes target types.length (do
      arrange types.length
      stateBody target names types) fun _ d' => d' = 0 := by
    apply Completes.bind (arrangeCompletes le_rfl)
    intro _ m turned
    apply Completes.opThen rfl (by omega)
    apply Completes.bind (storeFromCompletes codable ⟨le_rfl, room⟩ (by omega))
    intro _ m' stored
    apply Completes.opThen rfl (by omega)
    apply Completes.opThen rfl (by omega)
    exact .ensureDepth (by omega)
  obtain ⟨code, emitted, balanced⟩ := codeOfCompletes whole
  refine ⟨⟨"c7_to_c4", .storeState, 0, types.length, 0, code⟩, ?_, balanced⟩
  rw [emitted]
  rfl

structure Helpful (target : Target) (names : List String) (types : List Ty) : Prop where
  count : names.length = types.length
  distinct : Record.repeated? [] names = none
  few : (types.length : Int) ≤ maxTupleSize
  codable : Codable target types

theorem recordCompletes (name : String) {names : List String} {types : List Ty} {x : Record → Emit Unit}
    {depth after : Int} (helpful : Helpful target names types)
    (h : Completes target depth (x ⟨name, names, types⟩) fun _ d' => d' = after) :
    ∃ code, codeOf target depth (do x (← lift (Record.ofMembers name names types))) = .ok code ∧
      codeDepth? code depth = some after := by
  have made : Record.ofMembers name names types = .ok ⟨name, names, types⟩ := by
    unfold Record.ofMembers require
    rw [if_pos helpful.count, helpful.distinct]
    rfl
  exact codeOfCompletes (.liftThen made h)

theorem helpersComplete {names : List String} {types : List Ty} (name : String)
    (helpful : Helpful target names types) (room : 0 ≤ target.cellBits) :
    ∃ own, helpers target name names types = .ok own ∧ ∀ frag ∈ own, frag.Balanced := by
  have few := helpful.few
  have codable := helpful.codable
  obtain ⟨default, one, oneBalanced⟩ := recordCompletes (Ty.text (.struct name names types)) helpful
    (x := fun r => r.default false) (Record.defaultCompletes (d := 0) codable few le_rfl)
  obtain ⟨toBuilder, two, twoBalanced⟩ := recordCompletes (Ty.text (.struct name names types)) helpful
    (x := Record.toBuilder) (Record.toBuilderCompletes (d := 1) codable room few le_rfl)
  obtain ⟨ofSlice, three, threeBalanced⟩ := recordCompletes (Ty.text (.struct name names types)) helpful
    (x := Record.ofSlice) (Record.ofSliceCompletes (d := 1) codable room few le_rfl)
  refine ⟨[⟨name ++ "_default", .structDefault, 0, 0, 1, default⟩,
    ⟨name ++ "_to_builder", .structToBuilder, 0, 1, 1, toBuilder⟩,
    ⟨name ++ "_from_slice", .structOfSlice, 0, 1, 1, ofSlice⟩], ?_, ?_⟩
  · unfold helpers
    simp only [one, two, three]
    rfl
  · intro frag inside
    simp only [List.mem_cons, List.not_mem_nil, or_false] at inside
    rcases inside with rfl | rfl | rfl
    · exact oneBalanced
    · exact twoBalanced
    · exact threeBalanced

theorem functionsComplete {fs : List Function} (room : functionIdBits ≤ target.cellBits)
    (codable : ∀ f ∈ fs, f.isPublic = true → Codable target (types f.params) ∧ Codable target (types f.returns)) :
    ∃ fragments, functions target fs = .ok fragments ∧ ∀ frag ∈ fragments, frag.Balanced := by
  induction fs with
  | nil => exact ⟨[], rfl, nofun⟩
  | cons f rest ih =>
    obtain ⟨others, following, balanced⟩ := ih fun g inside => codable g (List.mem_cons_of_mem _ inside)
    unfold functions
    cases pub : f.isPublic with
    | false => exact ⟨others, by simpa [pub] using following, balanced⟩
    | true =>
      obtain ⟨params, returns⟩ := codable f List.mem_cons_self pub
      obtain ⟨first, decoded, firstBalanced⟩ := decodeCompletes params room
      obtain ⟨second, encoded, secondBalanced⟩ := encodeCompletes returns room
      simp only [if_true, decoded]
      by_cases ordinary : f.kind = .function
      · refine ⟨first :: [second] ++ others, ?_, ?_⟩
        · simp only [if_pos ordinary, encoded, following]
          rfl
        · intro frag inside
          simp only [List.cons_append, List.nil_append, List.mem_cons] at inside
          rcases inside with rfl | rfl | later
          · exact firstBalanced
          · exact secondBalanced
          · exact balanced frag later
      · refine ⟨first :: [] ++ others, ?_, ?_⟩
        · simp only [if_neg ordinary, following]
          rfl
        · intro frag inside
          simp only [List.cons_append, List.nil_append, List.mem_cons] at inside
          rcases inside with rfl | later
          · exact firstBalanced
          · exact balanced frag later

theorem structsComplete {list : List Ty} (room : 0 ≤ target.cellBits)
    (helpful : ∀ name names types, .struct name names types ∈ list → Encodable name names types →
      Helpful target names types) :
    ∃ fragments, structs target list = .ok fragments ∧ ∀ frag ∈ fragments, frag.Balanced := by
  induction list with
  | nil => exact ⟨[], rfl, nofun⟩
  | cons t rest ih =>
    obtain ⟨others, following, balanced⟩ := ih fun name names types inside =>
      helpful name names types (List.mem_cons_of_mem _ inside)
    rcases structsCons target t rest with ⟨name, names, types, rfl, encodable, opened⟩ | ⟨-, opened⟩
    · obtain ⟨own, made, ownBalanced⟩ :=
        helpersComplete name (helpful name names types List.mem_cons_self encodable) room
      refine ⟨own ++ others, ?_, ?_⟩
      · rw [opened, made, following]
        rfl
      · intro frag inside
        rcases List.mem_append.1 inside with mine | later
        · exact ownBalanced frag mine
        · exact balanced frag later
    · exact ⟨others, opened.trans following, balanced⟩

end Lower

end CellChain
