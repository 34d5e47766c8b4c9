import Mathlib
import CellChain.Proofs.LoadingEnds
import CellChain.Proofs.Overriding
/-! The ABI version of a unit is looked for twice: for the identifiers of its functions and for the headers that the
validator allows. Both take the version that a pragma names. Where none does, identifiers are derived for version 2
and the validator goes by the settings, so a unit has one version exactly when a pragma names one or the settings
say 2. -/
namespace CellChain

def Pragma.Names (p : Pragma) (version : Int) : Prop :=
  ∃ digits, p.tokens = ["AbiHeader", String.ofList ('v' :: digits)] ∧ Text.integer? digits = some version

def NamedFirst (pragmas : List Pragma) (version : Int) : Prop :=
  ∃ before p after, pragmas = before ++ p :: after ∧ p.Names version ∧ ∀ q ∈ before, ∀ v, ¬q.Names v

theorem Pragma.versionIff {p : Pragma} {version : Int} : p.version? = some version ↔ p.Names version := by
  constructor
  · intro found
    unfold Pragma.version? at found
    split at found
    · rename_i word tokens
      split at found
      · rename_i digits letters
        refine ⟨digits, ?_, found⟩
        rw [tokens, ← letters, String.ofList_toList]
      · cases found
    · cases found
  · intro ⟨digits, tokens, number⟩
    simp only [Pragma.version?, tokens, String.toList_ofList, number]

theorem Pragma.versionNone {p : Pragma} : p.version? = none ↔ ∀ v, ¬p.Names v := by
  rw [Option.eq_none_iff_forall_ne_some]
  exact forall_congr' fun v => not_congr Pragma.versionIff

theorem pragmaVersionIff {pragmas : List Pragma} {version : Int} :
    pragmaVersion? pragmas = some version ↔ NamedFirst pragmas version := by
  rw [pragmaVersion?, List.findSome?_eq_some_iff]
  simp only [Pragma.versionIff, Pragma.versionNone]
  rfl

theorem pragmaVersionNone {pragmas : List Pragma} :
    pragmaVersion? pragmas = none ↔ ∀ p ∈ pragmas, ∀ v, ¬p.Names v := by
  rw [pragmaVersion?, List.findSome?_eq_none_iff]
  simp only [Pragma.versionNone]

theorem Settings.validVersion {s : Settings} (valid : s.validate = .ok ()) :
    s.defaultVersion = 1 ∨ s.defaultVersion = 2 := by
  unfold Settings.validate at valid
  split_ifs at valid with _ _ _ _ _ version
  omega

namespace Description

def Identified (version : Int) (e : FunctionEntry) (f : Function) : Prop :=
  f.id = e.id.getD (functionId (f.signature?.getD "") version)

theorem readFunctionIdentified (declared : List String) (table : List StructDecl) (version : Int) (path : String)
    (e : FunctionEntry) : Always (Identified version e) (readFunction declared table version path e) := by
  unfold readFunction
  refine .bind (.any _) fun _ _ => .bind (.any _) fun _ _ => .bind (.any _) fun _ _ => ?_
  exact .bind (.any _) fun _ _ => .bind (.any _) fun _ _ => .pure rfl

theorem loadIdentified {decoder : Decoder} {w : Workspace} {path : String} {u : SourceUnit}
    (loaded : load decoder w path = .ok u) :
    ∃ p, sources decoder w path = .ok p ∧ List.Forall₂ (Signed fun e f => (∀ id, e.id = some id → f.id = id) ∧
      (e.id = none → ∃ s, f.signature? = some s ∧ f.id = functionId s (abiVersion u.pragmas)))
        ((counted p.sources).contracts.map Located.entry) u.contracts := by
  obtain ⟨p, found, ⟨empty, none⟩ | ⟨main, assembled, ends⟩⟩ := loadOk loaded
  · refine ⟨p, found, ?_⟩
    rw [empty, none]
    exact .nil
  · have signed := (assembleSigned (R := fun pragmas e f => Spelt (structNames p.sources) (structTable p.sources) e f ∧
      Identified (abiVersion pragmas) e f) p.sources main
      (fun _ path e before => ⟨readFunctionSpelt _ path e before, readFunctionIdentified _ _ _ path e before⟩)
      (fun _ _ _ own links => ⟨speltUnlinked own.1 links, own.2⟩)).result assembled
    have spelt := signed.imp fun e c own => (⟨own.name, own.functions.imp fun _ _ both => both.1⟩ : Signed _ e c)
    have bounded : ¬Unending p.sources := by
      rw [← endlessIff spelt, ends]
      exact nofun
    refine ⟨p, found, List.forall₂_iff_zip.2 ⟨signed.length_eq, fun {e c} pair => ?_⟩⟩
    have own := (List.forall₂_iff_zip.1 signed).2 pair
    refine ⟨own.name, List.forall₂_iff_zip.2 ⟨own.functions.length_eq, fun {fe f} here => ?_⟩⟩
    obtain ⟨types, derived⟩ := (List.forall₂_iff_zip.1 own.functions).2 here
    constructor
    · intro id declares
      rw [derived, declares, Option.getD_some]
    · intro undeclared
      cases shown : f.signature? with
      | some s => exact ⟨s, rfl, by rw [derived, undeclared, shown]; rfl⟩
      | none =>
        obtain ⟨located, inside, rfl⟩ := List.mem_map.1 (List.of_mem_zip pair).1
        have endless := (speltEndless types).1 (Option.isNone_iff_eq_none.2 shown)
        exact absurd ⟨located, inside, fe, (List.of_mem_zip here).1, undeclared, endless⟩ bounded

end Description

namespace Check

theorem Passes.headers {settings : Settings} {u : SourceUnit} {c : Contract} (passes : Passes settings u c)
    (own : c.name ≠ settings.stdlib) (first : abiVersion settings u.pragmas = 1) {p : Pragma} (inside : p ∈ u.pragmas) :
    ∀ header ∈ ["expire", "time", "pubkey"], p.tokens ≠ ["AbiHeader", header] := by
  intro header later tokens
  have found : (u.pragmas.find? (·.tokens == ["AbiHeader", header])).isSome :=
    List.find?_isSome.2 ⟨p, inside, by simp [tokens]⟩
  obtain ⟨q, here⟩ := Option.isSome_iff_exists.1 found
  have reported : ⟨q.place, .headerVersion⟩ ∈ (run settings u c).diagnostics := by
    rw [runDiagnostics, passes.ended]
    refine List.mem_append_right _ (List.mem_append_right _ ?_)
    rw [Option.isNone_none, if_pos rfl, afterIntrinsics, if_neg own, Check.headers, if_pos first]
    refine List.mem_append_left _ (List.mem_append_right _ (List.mem_append_left _ ?_))
    exact List.mem_flatMap.2 ⟨header, later, by rw [here]; exact List.mem_cons_self⟩
  exact errorsOfReport passes.clean reported rfl

end Check

theorem versionsNamed {pragmas : List Pragma} {v : Int} (named : NamedFirst pragmas v) (settings : Settings) :
    Description.abiVersion pragmas = v ∧ Check.abiVersion settings pragmas = v := by
  simp [Description.abiVersion, Check.abiVersion, pragmaVersionIff.2 named]

theorem versionsUnnamed {pragmas : List Pragma} (unnamed : ∀ p ∈ pragmas, ∀ v, ¬p.Names v) (settings : Settings) :
    Description.abiVersion pragmas = 2 ∧ Check.abiVersion settings pragmas = settings.defaultVersion := by
  simp [Description.abiVersion, Check.abiVersion, pragmaVersionNone.2 unnamed, Description.defaultVersion]

/- Both searches give what the pragmas say, and they differ exactly when these say nothing and the settings say 1. The
one is the version that identifiers are derived for, the other the version whose headers are allowed. -/
theorem versionsDecided {settings : Settings} (valid : settings.validate = .ok ()) (pragmas : List Pragma) :
    (∀ v, NamedFirst pragmas v → Description.abiVersion pragmas = v ∧ Check.abiVersion settings pragmas = v) ∧
    ((∀ p ∈ pragmas, ∀ v, ¬p.Names v) →
      Description.abiVersion pragmas = 2 ∧ Check.abiVersion settings pragmas = settings.defaultVersion) ∧
    (Description.abiVersion pragmas ≠ Check.abiVersion settings pragmas ↔
      (∀ p ∈ pragmas, ∀ v, ¬p.Names v) ∧ settings.defaultVersion = 1) ∧
    ∀ decoder w path u, Description.load decoder w path = .ok u → u.pragmas = pragmas →
      (∃ p, Description.sources decoder w path = .ok p ∧
        List.Forall₂ (Description.Signed fun e f => (∀ id, e.id = some id → f.id = id) ∧
          (e.id = none → ∃ s, f.signature? = some s ∧ f.id = functionId s (Description.abiVersion pragmas)))
          ((Description.counted p.sources).contracts.map Description.Located.entry) u.contracts) ∧
      ∀ c, Check.Passes settings u c → c.name ≠ settings.stdlib → Check.abiVersion settings pragmas = 1 →
        ∀ p ∈ pragmas, ∀ header ∈ ["expire", "time", "pubkey"], p.tokens ≠ ["AbiHeader", header] := by
  refine ⟨fun v named => versionsNamed named settings, fun unnamed => versionsUnnamed unnamed settings, ?_, ?_⟩
  · cases found : pragmaVersion? pragmas with
    | some v =>
      obtain ⟨derived, allowed⟩ := versionsNamed (pragmaVersionIff.1 found) settings
      have named : ¬∀ p ∈ pragmas, ∀ v, ¬p.Names v := by
        rw [← pragmaVersionNone, found]
        exact nofun
      simp only [derived, allowed, named, ne_eq, not_true, false_and]
    | none =>
      have unnamed := pragmaVersionNone.1 found
      obtain ⟨derived, allowed⟩ := versionsUnnamed unnamed settings
      have default := Settings.validVersion valid
      rw [derived, allowed]
      exact ⟨fun differ => ⟨unnamed, by omega⟩, fun ⟨_, one⟩ => by omega⟩
  · rintro decoder w path u loaded rfl
    exact ⟨Description.loadIdentified loaded, fun c passes own first p inside => passes.headers own first inside⟩

def firstVersion : Settings := { defaultVersion := 1 }

def greeterSources : Workspace :=
  ⟨"/work", [("main.yaml", "contracts:
- name: Greeter
  functions: [\x7bname: greet\x7d]
")]⟩

theorem greeterLoads : ∃ u, Description.load Description.decode greeterSources "main.yaml" = .ok u ∧
    u.pragmas.isEmpty ∧ ∃ c ∈ u.contracts,
    Check.Passes firstVersion u c ∧ ∃ f ∈ c.functions, f.id = functionId "greet()()" 2 ∧
      f.id ≠ functionId "greet()()" 1 := by decide +kernel

theorem greeterHasTwoVersions : firstVersion.validate = .ok () ∧
    ∃ u, Description.load Description.decode greeterSources "main.yaml" = .ok u ∧
      Description.abiVersion u.pragmas ≠ Check.abiVersion firstVersion u.pragmas ∧ ∃ c ∈ u.contracts,
        Check.Passes firstVersion u c ∧ ∃ f ∈ c.functions, f.id = functionId "greet()()" 2 ∧
          f.id ≠ functionId "greet()()" 1 := by
  have valid : firstVersion.validate = .ok () := rfl
  obtain ⟨u, loaded, none, c, mem, passes, f, own, second, first⟩ := greeterLoads
  have unnamed : ∀ p ∈ u.pragmas, ∀ v, ¬p.Names v := by
    rw [List.isEmpty_iff.1 none]
    exact List.forall_mem_nil _
  have differ := (versionsDecided valid u.pragmas).2.2.1.2 ⟨unnamed, rfl⟩
  exact ⟨valid, u, loaded, differ, c, mem, passes, f, own, second, first⟩

end CellChain
