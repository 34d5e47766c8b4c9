import Mathlib
import CellChain.Contract.Check
/-! What the validator reports of public signatures. A type is opened at mapping values and at array elements, not
at the members of structs and tuples: a mapping with a bad key, or a struct that does not fit its entry, is
reported when it is opened so, and nothing else is reported with their words. -/
namespace CellChain.Check

inductive Opens (target : Target) : Int → Ty → Int → Ty → Prop where
  | here (k : Int) (t : Ty) : Opens target k t k t
  | value {k k' : Int} {key value t : Ty} (inside : Opens target (key.keyWidth?.getD 0) value k' t) :
      Opens target k (.mapping key value) k' t
  | element {k k' : Int} {element t : Ty} (inside : Opens target target.arrayKey element k' t) :
      Opens target k (.array element) k' t

/- What is wrong with a type behind a key of `k` bits. -/
inductive Faulty (target : Target) : Int → Ty → Finding → Prop where
  | key {k : Int} {key value : Ty} (bad : ∀ signed bits, key = .integer signed bits → ¬(8 ≤ bits ∧ bits ≤ 256)) :
      Faulty target k (.mapping key value) .mappingKey
  | entry {k : Int} {name : String} {names : List String} {types : List Ty} (inside : 0 < k)
      (large : Ty.membersFitDict target k types = false) : Faulty target k (.struct name names types) .structNotOneCell

theorem keyWidthNone {key : Ty} :
    key.keyWidth?.isNone = true ↔ ∀ signed bits, key = .integer signed bits → ¬(8 ≤ bits ∧ bits ≤ 256) := by
  cases key with
  | integer signed bits =>
    by_cases range : 8 ≤ bits ∧ bits ≤ 256
    · simp [Ty.keyWidth?, range]
    · simp only [Ty.keyWidth?, if_neg range, Option.isNone_none, true_iff]
      intro signed' bits' same
      cases same
      exact range
  | _ => simp [Ty.keyWidth?]

theorem dictionariesExact {target : Target} {x : Finding} {k : Int} {t : Ty} :
    x ∈ dictionaries target k t ↔ ∃ k' s, Opens target k t k' s ∧ Faulty target k' s x := by
  fun_induction dictionaries target k t with
  | case1 k key value ih =>
    rw [List.mem_append, ih]
    constructor
    · rintro (own | ⟨k', s, opens, faulty⟩)
      · split at own
        · rename_i bad
          cases List.mem_singleton.1 own
          exact ⟨k, _, .here k _, .key (keyWidthNone.1 bad)⟩
        · cases own
      · exact ⟨k', s, .value opens, faulty⟩
    · rintro ⟨k', s, opens, faulty⟩
      cases opens with
      | here =>
        cases faulty with
        | key bad => exact .inl (by simp [keyWidthNone.2 bad])
      | value inside => exact .inr ⟨k', s, inside, faulty⟩
  | case2 k element ih =>
    rw [ih]
    constructor
    · rintro ⟨k', s, opens, faulty⟩
      exact ⟨k', s, .element opens, faulty⟩
    · rintro ⟨k', s, opens, faulty⟩
      cases opens with
      | here => cases faulty
      | element inside => exact ⟨k', s, inside, faulty⟩
  | case3 k name names types refused =>
    simp only [Bool.not_eq_eq_eq_not, Bool.not_true] at refused
    rw [List.mem_singleton]
    constructor
    · rintro rfl
      exact ⟨k, _, .here k _, .entry refused.1 refused.2⟩
    · rintro ⟨k', s, opens, faulty⟩
      cases opens
      cases faulty
      rfl
  | case4 k name names types accepted =>
    simp only [Bool.not_eq_eq_eq_not, Bool.not_true] at accepted
    refine iff_of_false List.not_mem_nil ?_
    rintro ⟨k', s, opens, faulty⟩
    cases opens
    cases faulty with
    | entry inside large => exact accepted ⟨inside, large⟩
  | case5 k t notMapping notArray notStruct =>
    refine iff_of_false List.not_mem_nil ?_
    rintro ⟨k', s, opens, faulty⟩
    cases opens with
    | here =>
      cases faulty with
      | key => exact notMapping _ _ rfl
      | entry => exact notStruct _ _ _ rfl
    | value => exact notMapping _ _ rfl
    | element => exact notArray _ rfl

def Silent (ds : List Diagnostic) : Prop :=
  ∀ d ∈ ds, d.finding ≠ .mappingKey ∧ d.finding ≠ .structNotOneCell

namespace Silent

theorem nil : Silent [] := nofun

theorem one {place : Place} {x : Finding} (other : x ≠ .mappingKey ∧ x ≠ .structNotOneCell) : Silent [⟨place, x⟩] := by
  intro d inside
  cases List.mem_singleton.1 inside
  exact other

theorem append {a b : List Diagnostic} (first : Silent a) (second : Silent b) : Silent (a ++ b) := by
  intro d inside
  rcases List.mem_append.1 inside with left | right
  · exact first d left
  · exact second d right

theorem flatMap {α : Type} {l : List α} {g : α → List Diagnostic} (each : ∀ a, Silent (g a)) :
    Silent (l.flatMap g) := by
  intro d inside
  obtain ⟨a, -, found⟩ := List.mem_flatMap.1 inside
  exact each a d found

theorem when {condition : Bool} {place : Place} {x : Finding}
    (other : x ≠ .mappingKey ∧ x ≠ .structNotOneCell) : Silent (Check.when condition place x) := by
  unfold Check.when
  split
  · exact one other
  · exact nil

theorem inlineFunction (f : Function) : Silent (Check.inlineFunction f) :=
  append (when ⟨nofun, nofun⟩) (when ⟨nofun, nofun⟩)

theorem encodable (v : Variable) : Silent (Check.encodable v) := by
  unfold Check.encodable
  split
  · exact one ⟨nofun, nofun⟩
  · exact nil

theorem intrinsicRules (settings : Settings) (contract : String) (f : Function) :
    Silent (Check.intrinsicRules settings contract f) := by
  unfold Check.intrinsicRules
  refine append (append (append (when ⟨nofun, nofun⟩) ?_) (when ⟨nofun, nofun⟩)) ?_
  · split
    · exact one ⟨nofun, nofun⟩
    · exact nil
  · split
    · exact when ⟨nofun, nofun⟩
    · exact when ⟨nofun, nofun⟩

theorem deployArguments {settings : Settings} {f : Function} {ds : List Diagnostic}
    (ok : Check.deployArguments settings f = .ok ds) : Silent ds := by
  unfold Check.deployArguments at ok
  split at ok
  · cases ok
    exact nil
  · split at ok
    · cases ok
    · cases ok
      exact when ⟨nofun, nofun⟩

theorem intrinsics (settings : Settings) (contract : String) (fs : List Function) :
    Silent (Check.intrinsics settings contract fs).diagnostics := by
  fun_induction Check.intrinsics settings contract fs with
  | case1 => exact nil
  | case2 f rest _ rules fault refused => exact intrinsicRules settings contract f
  | case3 f rest _ rules more taken others ih =>
    exact append (append (intrinsicRules settings contract f) (deployArguments taken)) ih
  | case4 f rest _ ih => exact ih

theorem stateVariables (used : List String) (vs : List Variable) : Silent (Check.stateVariables used vs) := by
  induction vs generalizing used with
  | nil => exact nil
  | cons v rest ih => exact append (append (when ⟨nofun, nofun⟩) (encodable v)) (ih _)

theorem overloads (earlier fs : List Function) : Silent (Check.overloads earlier fs) := by
  induction fs generalizing earlier with
  | nil => exact nil
  | cons f rest ih =>
    refine append ?_ (ih _)
    intro d inside
    obtain ⟨_, -, rfl⟩ := List.mem_map.1 inside
    exact ⟨nofun, nofun⟩

theorem overriding (settings : Settings) (u : SourceUnit) (c : Contract) :
    Silent (Check.overriding settings u c) := by
  refine append (flatMap fun p => flatMap fun r => ?_) (overloads _ _)
  split
  · exact when ⟨nofun, nofun⟩
  · exact nil

theorem headers (settings : Settings) (pragmas : List Pragma) : Silent (Check.headers settings pragmas) := by
  unfold Check.headers
  split
  · refine flatMap fun header => ?_
    split
    · exact one ⟨nofun, nofun⟩
    · exact nil
  · exact nil

theorem afterSignature (f : Function) : Silent (Check.afterSignature f) := by
  unfold Check.afterSignature
  split
  · exact append (append (append (when ⟨nofun, nofun⟩) (when ⟨nofun, nofun⟩)) (when ⟨nofun, nofun⟩))
      (when ⟨nofun, nofun⟩)
  · exact nil

theorem codeUpgrade (f : Function) : Silent (Check.codeUpgrade f) := by
  unfold Check.codeUpgrade
  split
  · refine append ?_ (when ⟨nofun, nofun⟩)
    split
    · exact one ⟨nofun, nofun⟩
    · exact nil
  · exact nil

end Silent

def afterIntrinsics (settings : Settings) (u : SourceUnit) (c : Contract) : List Diagnostic :=
  stateVariables [] ((u.baseFirst c).flatMap Contract.state) ++ overriding settings u c ++
    (if c.name = settings.stdlib then []
      else headers settings u.pragmas ++ c.functions.flatMap afterSignature) ++
    c.functions.flatMap codeUpgrade

theorem Silent.afterIntrinsics (settings : Settings) (u : SourceUnit) (c : Contract) :
    Silent (Check.afterIntrinsics settings u c) := by
  refine append (append (append (stateVariables [] _) (overriding settings u c)) ?_) (flatMap codeUpgrade)
  split
  · exact nil
  · exact append (headers settings _) (flatMap afterSignature)

theorem runDiagnostics (settings : Settings) (u : SourceUnit) (c : Contract) :
    (run settings u c).diagnostics = c.functions.flatMap inlineFunction ++
      c.functions.flatMap (parameters settings.vm) ++ ((intrinsics settings c.name c.functions).diagnostics ++
        if (run settings u c).abort.isNone then afterIntrinsics settings u c else []) := by
  cases ended : (intrinsics settings c.name c.functions).abort with
  | some fault => simp [run, ended]
  | none => simp [run, ended, afterIntrinsics]

theorem errorsOfReport {settings : Settings} {u : SourceUnit} {c : Contract}
    (clean : (run settings u c).hasErrors = false) {d : Diagnostic} (inside : d ∈ (run settings u c).diagnostics) :
    d.finding.severity ≠ .error := by
  intro error
  have found : (run settings u c).hasErrors = true := by
    rw [Report.hasErrors, List.any_eq_true]
    exact ⟨d, inside, by simp [Diagnostic.isError, error]⟩
  rw [clean] at found
  cases found

theorem parametersMem {settings : Settings} {u : SourceUnit} {c : Contract} {f : Function} (mem : f ∈ c.functions)
    (pub : f.isPublic = true) {v : Variable} (inside : v ∈ f.params ++ f.returns) {d : Diagnostic}
    (found : d ∈ parameter settings.vm v) : d ∈ (run settings u c).diagnostics := by
  rw [runDiagnostics]
  refine List.mem_append_left _ (List.mem_append_right _ (List.mem_flatMap.2 ⟨f, mem, ?_⟩))
  rw [parameters, if_pos pub]
  exact List.mem_flatMap.2 ⟨v, inside, found⟩

theorem parameterEncodable {settings : Settings} {u : SourceUnit} {c : Contract}
    (clean : (run settings u c).hasErrors = false) {f : Function} (mem : f ∈ c.functions) (pub : f.isPublic = true)
    {v : Variable} (inside : v ∈ f.params ++ f.returns) : v.type.unencodable? = none := by
  cases found : v.type.unencodable? with
  | none => rfl
  | some t =>
    have reported : ⟨v.place, .noEncoding t.text⟩ ∈ parameter settings.vm v :=
      List.mem_append_left _ (by simp [encodable, found])
    exact absurd rfl (errorsOfReport clean (parametersMem mem pub inside reported))

theorem signatureFindings (settings : Settings) (u : SourceUnit) (c : Contract) {place : Place} {x : Finding}
    (kind : x = .mappingKey ∨ x = .structNotOneCell) :
    ⟨place, x⟩ ∈ (run settings u c).diagnostics ↔
      ∃ f ∈ c.functions, f.isPublic = true ∧ ∃ v ∈ f.params ++ f.returns, v.place = place ∧
        ∃ k t, Opens settings.vm 0 v.type k t ∧ Faulty settings.vm k t x := by
  have loud {ds : List Diagnostic} (silent : Silent ds) : (⟨place, x⟩ : Diagnostic) ∉ ds := by
    intro inside
    obtain ⟨first, second⟩ := silent _ inside
    rcases kind with rfl | rfl
    · exact first rfl
    · exact second rfl
  have before := loud (Silent.flatMap (l := c.functions) .inlineFunction)
  have after : (⟨place, x⟩ : Diagnostic) ∉ (intrinsics settings c.name c.functions).diagnostics ++
      if (run settings u c).abort.isNone then afterIntrinsics settings u c else [] := by
    refine loud ((Silent.intrinsics settings c.name c.functions).append ?_)
    split
    · exact .afterIntrinsics settings u c
    · exact .nil
  have ofVariable (v : Variable) : ⟨place, x⟩ ∈ parameter settings.vm v ↔
      v.place = place ∧ ∃ k t, Opens settings.vm 0 v.type k t ∧ Faulty settings.vm k t x := by
    rw [parameter, List.mem_append, List.mem_map, ← dictionariesExact]
    simp only [loud (.encodable v), false_or, Diagnostic.mk.injEq]
    constructor
    · rintro ⟨y, found, rfl, rfl⟩
      exact ⟨rfl, found⟩
    · rintro ⟨rfl, found⟩
      exact ⟨x, found, rfl, rfl⟩
  rw [runDiagnostics]
  rw [List.mem_append, or_iff_left after, List.mem_append, or_iff_right before, List.mem_flatMap]
  constructor
  · rintro ⟨f, mem, found⟩
    rw [parameters] at found
    split at found
    · rename_i pub
      obtain ⟨v, inside, reported⟩ := List.mem_flatMap.1 found
      exact ⟨f, mem, pub, v, inside, (ofVariable v).1 reported⟩
    · cases found
  · rintro ⟨f, mem, pub, v, inside, reported⟩
    refine ⟨f, mem, ?_⟩
    rw [parameters, if_pos pub]
    exact List.mem_flatMap.2 ⟨v, inside, (ofVariable v).2 reported⟩

/- A contract without errors has signatures that can be encoded, and in which no type that is opened is faulty. The
findings tell of the opened types alone. -/
theorem acceptedSignatures (settings : Settings) (u : SourceUnit) (c : Contract) :
    ((run settings u c).hasErrors = false → ∀ f ∈ c.functions, f.isPublic = true → ∀ v ∈ f.params ++ f.returns,
      v.type.unencodable? = none ∧ ∀ k t x, Opens settings.vm 0 v.type k t → ¬Faulty settings.vm k t x) ∧
    ∀ place x, x = .mappingKey ∨ x = .structNotOneCell → (⟨place, x⟩ ∈ (run settings u c).diagnostics ↔
      ∃ f ∈ c.functions, f.isPublic = true ∧ ∃ v ∈ f.params ++ f.returns, v.place = place ∧
        ∃ k t, Opens settings.vm 0 v.type k t ∧ Faulty settings.vm k t x) := by
  refine ⟨fun clean f mem pub v inside => ⟨parameterEncodable clean mem pub inside, ?_⟩,
    fun place x kind => signatureFindings settings u c kind⟩
  intro k t x opens faulty
  have kind : x = .mappingKey ∨ x = .structNotOneCell := by
    cases faulty with
    | key => exact .inl rfl
    | entry => exact .inr rfl
  have reported := (signatureFindings settings u c kind).2
    ⟨f, mem, pub, v, inside, rfl, k, t, opens, faulty⟩
  have error : x.severity = .error := by
    rcases kind with rfl | rfl <;> rfl
  exact errorsOfReport clean reported error

def tupledMapping : Contract :=
  { name := "C", structs := [], state := [], linearized := [], place := ⟨"", 1, 1⟩
    functions := [{ name := "f", kind := .function, returns := [], visibility := .publ, mutability := .nonpayable,
                    inline := false, id := 0, overrides := [], place := ⟨"", 2, 1⟩,
                    params := [⟨"p", .tuple [.mapping .bool (.uint 8)], ⟨"", 3, 1⟩⟩] }] }

theorem tupledMappingAccepted :
    (run {} ⟨[], [tupledMapping], ⟨"", 1, 1⟩⟩ tupledMapping).hasErrors = false ∧
    Faulty {} 0 (.mapping .bool (.uint 8)) .mappingKey ∧
    ∀ k t x, Opens {} 0 (.tuple [.mapping .bool (.uint 8)]) k t → ¬Faulty {} k t x := by
  have clean : (run {} ⟨[], [tupledMapping], ⟨"", 1, 1⟩⟩ tupledMapping).hasErrors = false := by decide +kernel
  refine ⟨clean, .key (by simp), ?_⟩
  exact ((acceptedSignatures {} ⟨[], [tupledMapping], ⟨"", 1, 1⟩⟩ tupledMapping).1 clean _ List.mem_cons_self rfl
    ⟨"p", .tuple [.mapping .bool (.uint 8)], ⟨"", 3, 1⟩⟩ List.mem_cons_self).2

end CellChain.Check
