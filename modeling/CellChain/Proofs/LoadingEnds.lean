import Mathlib
import CellChain.Proofs.LoadedLinks
import CellChain.Proofs.StructSearch
/-! When loading comes to an end. The identifier of a function that declares none is made from the names of its types,
and nothing keeps a struct from referring to itself: such a struct in a signature has a name without end. Loading
does not end exactly when there is such a function, whatever else is wrong with the descriptions. -/
namespace CellChain.Description

open Relation (ReflTransGen TransGen)
open Descent (Founded)
open StructDecl (Mentions Spells Covers close)

variable {α β : Type}

def Steady (x : Reviewed α) : Prop := Always (· = (x []).1) x

namespace Steady

theorem pure (a : α) : Steady (Pure.pure a : Reviewed α) := fun _ => rfl

theorem complain (place : Place) (fault : Fault) : Steady (complain place fault) := fun _ => rfl

theorem bind {x : Reviewed α} {f : α → Reviewed β} (first : Steady x) (second : ∀ a, Steady (f a)) :
    Steady (x >>= f) := by
  intro before
  have same : (f (x before).1 (x before).2).1 = (f (x before).1 []).1 := second _ _
  have start : (f (x []).1 (x []).2).1 = (f (x []).1 []).1 := second _ _
  change (f (x before).1 (x before).2).1 = (f (x []).1 (x []).2).1
  rw [same, start, first before]

theorem each {step : α → Reviewed β} (h : ∀ a, Steady (step a)) (list : List α) :
    Steady (Description.each step list) := by
  induction list with
  | nil => exact pure []
  | cons a rest ih => exact bind (h a) fun b => bind ih fun others => pure (b :: others)

end Steady

theorem declareStructsSteady (path : String) (structs : List StructEntry) (d : Declared) :
    Steady (declareStructs path structs d) := by
  induction structs generalizing d with
  | nil => exact .pure _
  | cons s rest ih =>
    unfold declareStructs
    refine .bind ?_ fun p => .bind (ih p.1) fun q => .pure _
    unfold declareStruct
    split
    · exact .bind (.complain _ _) fun _ => .pure _
    · exact .pure _

theorem declareAllSteady (entries : List (Located ContractEntry)) (d : Declared) : Steady (declareAll entries d) := by
  induction entries generalizing d with
  | nil => exact .pure d
  | cons c rest ih =>
    refine .bind ?_ fun next => ih next
    unfold declareContract
    simp only
    split
    · exact .bind (.complain _ _) fun _ => .pure d
    · split
      · exact .bind (.complain _ _) fun _ => .pure d
      · exact .bind (declareStructsSteady _ _ _) fun _ => .pure _

def writtenType (declared : List String) (v : VariableEntry) : Ty := ((readType declared "" v) []).1

theorem readTypeWritten (declared : List String) (path : String) (v : VariableEntry) :
    Always (· = writtenType declared v) (readType declared path v) := by
  unfold writtenType readType
  simp only
  generalize Ty.parse _ v.type = parsed
  cases parsed with
  | ok t => exact .pure rfl
  | error e => exact .bind (.any _) fun _ _ => .pure rfl

theorem readMembersSteady (declared : List String) (path owner : String) (entries : List VariableEntry)
    (seen : List String) : Steady (readMembers declared path owner seen entries) := by
  induction entries generalizing seen with
  | nil => exact .pure []
  | cons m rest ih =>
    unfold readMembers
    split
    · exact .bind (.complain _ _) fun _ => ih seen
    · refine .bind ?_ fun t => .bind (ih _) fun others => .pure _
      unfold readType
      simp only
      split
      · exact .pure _
      · exact .bind (.complain _ _) fun _ => .pure _

theorem readStructsSteady (declared : List String) (structs : List (Located StructEntry)) :
    Steady (each (readStruct declared) structs) :=
  .each (fun _ => .bind (readMembersSteady _ _ _ _ _) fun _ => .pure _) structs

def counted (sources : List Source) : Declared :=
  (declareAll (sources.flatMap fun s => s.description.contracts.map (Located.mk s.path ·)) {} []).1

def structNames (sources : List Source) : List String := (counted sources).structs.map (·.entry.name)

def declaredTable (structs : List (Located StructEntry)) : List StructDecl :=
  (each (readStruct (structs.map (·.entry.name))) structs []).1

def structTable (sources : List Source) : List StructDecl := declaredTable (counted sources).structs

theorem namesKept (declared : List String) : Ty.Kept fun t => ∀ n ∈ t.names, n ∈ declared where
  builtIn := by
    intro name t found
    have plain := Ty.builtInPlain found
    cases t <;> simp [Ty.isPlain] at plain <;> simp [Ty.names]
  integer := fun _ _ => by simp [Ty.names]
  array := fun own => by simpa [Ty.names] using own
  mapping := fun first second => by
    simp only [Ty.names, List.mem_append]
    exact fun n inside => inside.elim (first n) (second n)
  tuple := fun all => by
    simp only [Ty.names, Ty.memNames]
    exact fun n ⟨t, inside, own⟩ => all t inside n own

theorem writtenNames (declared : List String) (v : VariableEntry) :
    ∀ n ∈ (writtenType declared v).names, n ∈ declared := by
  refine readTypeKept (namesKept declared) (fun n inside => ?_) (fun text => ?_) "" v []
  · simpa [Ty.names] using inside
  · simp [Ty.names]

theorem readStructWritten (declared : List String) (s : Located StructEntry) :
    Always (fun d => d.name = s.entry.name ∧ ∀ t ∈ d.types, ∃ v ∈ s.entry.members, t = writtenType declared v)
      (readStruct declared s) := by
  have members : ∀ (entries : List VariableEntry) (seen : List String),
      Always (fun members => ∀ m ∈ members, ∃ v ∈ entries, m.2 = writtenType declared v)
        (readMembers declared s.path s.entry.name seen entries) := by
    intro entries
    induction entries with
    | nil => exact fun _ => .pure nofun
    | cons m rest ih =>
      intro seen
      have later {members : List (String × Ty)} (all : ∀ m ∈ members, ∃ v ∈ rest, m.2 = writtenType declared v) :
          ∀ n ∈ members, ∃ v ∈ m :: rest, n.2 = writtenType declared v := by
        intro n inside
        obtain ⟨v, listed, same⟩ := all n inside
        exact ⟨v, List.mem_cons_of_mem _ listed, same⟩
      unfold readMembers
      split
      · exact .bind (.any _) fun _ _ => (ih seen).mono fun _ => later
      · refine .bind (readTypeWritten declared s.path m) fun t written => ?_
        exact .bind (ih _) fun others all =>
          .pure (List.forall_mem_cons.2 ⟨⟨m, List.mem_cons_self, written⟩, later all⟩)
  refine .bind (members _ _) fun read all => .pure ⟨rfl, ?_⟩
  simp only [List.unzip_eq_map]
  intro t inside
  obtain ⟨m, found, rfl⟩ := List.mem_map.1 inside
  exact all m found

theorem declaredTableRead (structs : List (Located StructEntry)) :
    List.Forall₂ (fun s d => d.name = s.entry.name ∧
      ∀ t ∈ d.types, ∃ v ∈ s.entry.members, t = writtenType (structs.map (·.entry.name)) v)
      structs (declaredTable structs) :=
  Always.pairs (fun s _ => readStructWritten _ s) []

theorem declaredTableNames (structs : List (Located StructEntry)) :
    (declaredTable structs).map StructDecl.name = structs.map (·.entry.name) :=
  partnersAgree (declaredTableRead structs) fun _ _ own => own.1

theorem declaredTypes {structs : List (Located StructEntry)} {d : StructDecl} (inside : d ∈ declaredTable structs) :
    ∀ t ∈ d.types, ∃ v, t = writtenType (structs.map (·.entry.name)) v := by
  obtain ⟨_, -, -, all⟩ := partnerOfMem (declaredTableRead structs).flip inside
  intro t own
  obtain ⟨v, -, same⟩ := all t own
  exact ⟨v, same⟩

theorem structTableNames (sources : List Source) : (structTable sources).map StructDecl.name = structNames sources :=
  declaredTableNames _

theorem structTableComplete (sources : List Source) :
    ∀ s ∈ structTable sources, ∀ t ∈ s.types, Covers (structTable sources) t := by
  intro s inside t own
  obtain ⟨v, rfl⟩ := declaredTypes inside t own
  rw [Covers, structTableNames]
  exact writtenNames _ v

theorem Always.zipped {R : β → α → Prop} {step : α × β → Reviewed α}
    (h : ∀ e x, R e x → Always (R e) (step (x, e))) {es : List β} {xs : List α} (all : List.Forall₂ R es xs) :
    Always (List.Forall₂ R es) (Description.each step (xs.zip es)) := by
  induction all with
  | nil => exact .pure .nil
  | cons own _ ih => exact .bind (h _ _ own) fun y kept => .bind ih fun others rest => .pure (.cons kept rest)

structure Spelt (declared : List String) (table : List StructDecl) (e : FunctionEntry) (f : Function) : Prop where
  params : f.params.map Variable.type = e.params.map fun v => close table (writtenType declared v)
  returns : f.returns.map Variable.type = e.returns.map fun v => close table (writtenType declared v)

structure Signed (R : FunctionEntry → Function → Prop) (e : ContractEntry) (c : Contract) : Prop where
  name : c.name = e.name
  functions : List.Forall₂ R e.functions c.functions

def Unlinked (R : FunctionEntry → Function → Prop) : Prop :=
  ∀ {e f}, R e f → ∀ links, R e { f with overrides := links }

section
variable {declared : List String} {table : List StructDecl}

theorem readVariablesWritten (path : String) (entries : List VariableEntry) :
    Always (fun read => read.map Variable.type = entries.map fun v => close table (writtenType declared v))
      (each (readVariable declared table path) entries) := by
  refine .mono (.pairs (R := fun v read => read.type = close table (writtenType declared v)) fun v _ => ?_)
    fun read all => partnersAgree all fun _ _ own => own
  exact .bind (readTypeWritten declared path v) fun t written => .pure (by rw [written])

theorem readFunctionSpelt (version : Int) (path : String) (e : FunctionEntry) :
    Always (Spelt declared table e) (readFunction declared table version path e) := by
  unfold readFunction
  refine .bind (.any _) fun _ _ => .bind (.any _) fun _ _ => .bind (.any _) fun _ _ => ?_
  refine .bind (readVariablesWritten path e.params) fun params first => ?_
  exact .bind (readVariablesWritten path e.returns) fun returns second => .pure ⟨first, second⟩

theorem speltUnlinked : Unlinked (Spelt declared table) := fun spelt _ => ⟨spelt.params, spelt.returns⟩

end

section
variable {R : FunctionEntry → Function → Prop}

theorem readContractSigned {declared : List String} {table : List StructDecl} {version : Int}
    (read : ∀ path e, Always (R e) (readFunction declared table version path e)) (c : Located ContractEntry) :
    Always (Signed R c.entry) (readContract declared table version c) := by
  refine .bind (.any _) fun state _ => ?_
  exact .bind (.pairs fun f _ => read c.path f) fun functions all => .pure ⟨rfl, all⟩

theorem putInOrderSigned {graph : Lineage.Graph} {entries : List ContractEntry} {contracts : List Contract}
    {p : Lineage.Progress} (signed : List.Forall₂ (Signed R) entries contracts) :
    Always (List.Forall₂ (Signed R) entries) (putInOrder graph contracts p) := by
  induction signed generalizing p with
  | nil => exact .pure .nil
  | cons own _ ih =>
    unfold putInOrder
    split
    · exact .bind ih fun others all => .pure (.cons ⟨own.name, own.functions⟩ all)
    · exact .bind (.any _) fun _ _ => .bind ih fun others all => .pure (.cons own all)

theorem linkContractSigned (unlinked : Unlinked R) (contracts : List Contract) {e : ContractEntry} {c : Contract}
    (signed : Signed R e c) : Always (Signed R e) (linkContract contracts c e) := by
  unfold linkContract
  split
  · exact .pure signed
  · refine .bind (.zipped (fun fe f own => ?_) signed.functions) fun functions all => .pure ⟨signed.name, all⟩
    refine (linkFunctionCases contracts e.bases f fe).mono fun l same => ?_
    rcases same with rfl | rfl
    · exact own
    · exact unlinked own _

end

/- What relates every function to its entry when it is read relates the functions of the unit to the entries that
count. It may depend on the pragmas of the unit. -/
theorem assembleSigned {R : List Pragma → FunctionEntry → Function → Prop} (sources : List Source) (main : Source)
    (read : ∀ pragmas path e, Always (R pragmas e)
      (readFunction (structNames sources) (structTable sources) (abiVersion pragmas) path e))
    (unlinked : ∀ pragmas, Unlinked (R pragmas)) :
    Always (fun u => List.Forall₂ (Signed (R u.pragmas)) ((counted sources).contracts.map Located.entry) u.contracts)
      (assemble sources main) := by
  unfold assemble
  refine .bind (declareAllSteady _ _) fun d same => ?_
  subst same
  refine .bind (readStructsSteady _ _) fun table same => ?_
  subst same
  refine .bind (.any _) fun _ _ => .bind (.pairs fun c _ => readContractSigned (read _) c) fun contracts own => ?_
  refine .bind (putInOrderSigned (List.forall₂_map_left_iff.2 own)) fun ordered all => ?_
  refine .bind (.zipped (fun e c signed => ?_) all) fun linked signed => .pure signed
  exact linkContractSigned (unlinked _) ordered signed

structure Firsts (entries : List ContractEntry) (d : Declared) : Prop where
  found : ∀ c ∈ d.contracts, ∃ e, entries.find? (·.name == c.entry.name) = some e ∧ e.functions = c.entry.functions
  named : ∀ e ∈ entries, e.name ≠ "" → ∃ c ∈ d.contracts, c.entry.name = e.name

theorem declareContractFirsts {entries : List ContractEntry} {d : Declared} (firsts : Firsts entries d) (path : String)
    (c : ContractEntry) : Always (Firsts (entries ++ [c])) (declareContract path d c) := by
  have before : ∀ b ∈ d.contracts,
      ∃ e, (entries ++ [c]).find? (·.name == b.entry.name) = some e ∧ e.functions = b.entry.functions := by
    intro b inside
    obtain ⟨e, found, same⟩ := firsts.found b inside
    exact ⟨e, by rw [List.find?_append, found, Option.some_or], same⟩
  have named : ∀ {contracts : List (Located ContractEntry)}, d.contracts ⊆ contracts →
      (c.name ≠ "" → ∃ b ∈ contracts, b.entry.name = c.name) →
      ∀ e ∈ entries ++ [c], e.name ≠ "" → ∃ b ∈ contracts, b.entry.name = e.name := by
    intro contracts more own e inside given
    rcases List.mem_append.1 inside with earlier | last
    · obtain ⟨b, member, same⟩ := firsts.named e earlier given
      exact ⟨b, more member, same⟩
    · rw [List.mem_singleton.1 last] at given ⊢
      exact own given
  unfold declareContract
  simp only
  split
  · rename_i empty
    exact .bind (.any _) fun _ _ => .pure ⟨before, named (fun _ => id) fun given => absurd empty given⟩
  · split
    · rename_i first found
      have same := List.find?_some found
      rw [beq_iff_eq] at same
      exact .bind (.any _) fun _ _ => .pure
        ⟨before, named (fun _ => id) fun _ => ⟨first, List.mem_of_find?_eq_some found, same⟩⟩
    · rename_i given _ fresh
      refine .bind (declareStructsContracts path c.structs d) fun after same => .pure ⟨?_, ?_⟩
      · simp only [same]
        intro b inside
        rcases List.mem_append.1 inside with earlier | last
        · exact before b earlier
        · rw [List.mem_singleton.1 last]
          refine ⟨c, ?_, rfl⟩
          have none : entries.find? (·.name == c.name) = none := by
            rw [List.find?_eq_none]
            intro e member equal
            rw [beq_iff_eq] at equal
            obtain ⟨b, own, name⟩ := firsts.named e member (equal ▸ given)
            exact List.find?_eq_none.1 fresh b own (beq_iff_eq.2 (name.trans equal))
          simp [List.find?_append, none]
      · simp only [same]
        exact named (List.subset_append_left _ _) fun _ => ⟨_, List.mem_append_right _ List.mem_cons_self, rfl⟩

theorem declareAllFirsts {done : List ContractEntry} {entries : List (Located ContractEntry)} {d : Declared}
    (firsts : Firsts done d) : Always (Firsts (done ++ entries.map Located.entry)) (declareAll entries d) := by
  induction entries generalizing done d with
  | nil =>
    rw [List.map_nil, List.append_nil]
    exact .pure firsts
  | cons c rest ih =>
    refine .bind (declareContractFirsts firsts c.path c.entry) fun next kept => ?_
    rw [List.map_cons, ← List.singleton_append, ← List.append_assoc]
    exact ih kept

theorem countedFirsts (sources : List Source) :
    Firsts (sources.flatMap fun s => s.description.contracts) (counted sources) := by
  have firsts : Firsts ([] ++ (sources.flatMap fun s => s.description.contracts.map (Located.mk s.path ·)).map
      Located.entry) (counted sources) := declareAllFirsts ⟨by simp, by simp⟩ []
  simpa [List.map_flatMap, Function.comp_def] using firsts

theorem typeListIff {types : List Ty} :
    (typeList? types).isSome = true ↔ ∀ t ∈ types, t.canonical.isSome = true := by
  rw [typeList?, Option.isSome_map, Ty.canonicalsIff, List.eq_nil_iff_forall_not_mem]
  simp only [Ty.memNames, Ty.canonicalIff, List.eq_nil_iff_forall_not_mem, not_exists, not_and]
  exact ⟨fun none t inside n => none n t inside, fun none n t inside => none t inside n⟩

theorem signatureIff {name : String} {params returns : List Ty} :
    (signature? name params returns).isSome = true ↔ ∀ t ∈ params ++ returns, t.canonical.isSome = true := by
  rw [List.forall_mem_append, ← typeListIff, ← typeListIff, signature?]
  cases typeList? params <;> cases typeList? returns <;> simp

theorem speltEndless {sources : List Source} {e : FunctionEntry} {f : Function}
    (spelt : Spelt (structNames sources) (structTable sources) e f) :
    f.signature?.isNone = true ↔ ∃ v ∈ e.params ++ e.returns,
      ¬ Founded (Spells (structTable sources)) (writtenType (structNames sources) v) := by
  have covers : ∀ v, Covers (structTable sources) (writtenType (structNames sources) v) := by
    intro v n inside
    rw [structTableNames]
    exact writtenNames _ v n inside
  rw [← Option.not_isSome, Bool.not_eq_true', ← Bool.not_eq_true, Function.signature?, signatureIff, spelt.params,
    spelt.returns, ← List.map_append]
  simp only [List.forall_mem_map, StructDecl.canonicalEnds (structTableComplete sources) (covers _), not_forall,
    exists_prop]

def Unending (sources : List Source) : Prop :=
  ∃ c ∈ (counted sources).contracts, ∃ e ∈ c.entry.functions, e.id = none ∧
    ∃ v ∈ e.params ++ e.returns, ¬ Founded (Spells (structTable sources)) (writtenType (structNames sources) v)

theorem endlessIff {sources : List Source} {u : SourceUnit}
    (signed : List.Forall₂ (Signed (Spelt (structNames sources) (structTable sources)))
      ((counted sources).contracts.map Located.entry) u.contracts) :
    (∃ f, endless? sources u = some f) ↔ Unending sources := by
  have firsts := countedFirsts sources
  constructor
  · rintro ⟨name, found⟩
    obtain ⟨c, mem, here⟩ := List.exists_of_findSome?_eq_some found
    obtain ⟨e, first, here⟩ := Option.bind_eq_some_iff.1 here
    obtain ⟨⟨f, fe⟩, pair, -⟩ := Option.bind_eq_some_iff.1 here
    obtain ⟨_, among, own⟩ := partnerOfMem signed.flip mem
    obtain ⟨located, inside, rfl⟩ := List.mem_map.1 among
    obtain ⟨other, again, same⟩ := firsts.found located inside
    rw [← own.name, first] at again
    cases again
    have listed := List.mem_of_find?_eq_some pair
    have test := List.find?_some pair
    rw [Bool.and_eq_true] at test
    rw [same] at listed
    have spelt := List.forall₂_zip own.functions.flip listed
    exact ⟨located, inside, fe, (List.of_mem_zip listed).2, Option.isNone_iff_eq_none.1 test.1,
      (speltEndless spelt).1 test.2⟩
  · rintro ⟨located, inside, fe, listed, unnamed, endless⟩
    obtain ⟨c, mem, own⟩ := partnerOfMem signed (List.mem_map_of_mem inside)
    obtain ⟨e, first, same⟩ := firsts.found located inside
    obtain ⟨f, pair, spelt⟩ := partnerZip own.functions listed
    rw [← Option.isSome_iff_exists, endless?, List.findSome?_isSome_iff]
    refine ⟨c, mem, ?_⟩
    rw [own.name, first]
    have test : (fe.id.isNone && f.signature?.isNone) = true := by rw [unnamed, (speltEndless spelt).2 endless]; rfl
    simp only [Option.bind_eq_bind, Option.bind_some, Option.isSome_bind, Option.isSome_some]
    have some : ((c.functions.zip e.functions).find? fun p => p.2.id.isNone && p.1.signature?.isNone).isSome :=
      List.find?_isSome.2 ⟨(f, fe), same ▸ pair, test⟩
    obtain ⟨p, hit⟩ := Option.isSome_iff_exists.1 some
    rw [hit]
    rfl

theorem loadEndless (decoder : Decoder) (w : Workspace) (path : String) :
    (∃ f, load decoder w path = .error (.endlessSignature f)) ↔
    ∃ p, sources decoder w path = .ok p ∧ p.complaints = [] ∧ Unending p.sources := by
  cases found : sources decoder w path with
  | error e => simp [load, found]
  | ok p =>
    have both : (∃ f, load decoder w path = .error (.endlessSignature f)) ↔ p.complaints = [] ∧ Unending p.sources := by
      cases clear : p.complaints with
      | cons c rest => simp [load, found, clear]
      | nil =>
        cases last : p.sources.getLast? with
        | none =>
          rw [List.getLast?_eq_none_iff] at last
          have none : (counted []).contracts = [] := rfl
          simp [load, found, clear, last, Unending, none]
        | some main =>
          have ends : (∃ f, endless? p.sources ((assemble p.sources main).run []).1 = some f) ↔ Unending p.sources :=
            endlessIff (assembleSigned (R := fun _ => Spelt _ _) p.sources main (fun _ => readFunctionSpelt _)
              (fun _ => speltUnlinked) [])
          simp only [load, found, clear, last, ← ends, true_and]
          generalize (assemble p.sources main).run [] = result
          obtain ⟨u, complaints⟩ := result
          cases endless : endless? p.sources u with
          | some f => simp [endless]
          | none => cases complaints <;> simp [endless]
    simp only [both, Except.ok.injEq, exists_eq_left']

/- The search for structs that hold themselves always ends. The name of a type has an end exactly when the structs it
refers to, in any way, do not come back to themselves; a type that is written out has a name exactly then. Loading goes
on without end exactly for the sake of a function that declares no identifier and has a type with such a struct. -/
theorem loadingEnds (decoder : Decoder) (w : Workspace) (path : String) :
    (∀ table more, StructDecl.firstFailing? table (table.length + 1 + more) table [] = StructDecl.firstLoop? table) ∧
    (∀ table t, Founded (Spells table) t ↔
      ¬ ∃ n ∈ t.names, ∃ m, ReflTransGen (Mentions table) n m ∧ TransGen (Mentions table) m m) ∧
    (∀ table t, (∀ s ∈ table, ∀ u ∈ s.types, Covers table u) → Covers table t →
      ((close table t).canonical.isSome = true ↔ Founded (Spells table) t)) ∧
    ((∃ f, load decoder w path = .error (.endlessSignature f)) ↔
      ∃ p, sources decoder w path = .ok p ∧ p.complaints = [] ∧ ∃ c ∈ (counted p.sources).contracts,
        ∃ e ∈ c.entry.functions, e.id = none ∧ ∃ v ∈ e.params ++ e.returns,
          ¬ Founded (Spells (structTable p.sources)) (writtenType (structNames p.sources) v)) := by
  refine ⟨StructDecl.firstLoopSettled, fun table t => ?_, fun table t complete covers => ?_, loadEndless decoder w path⟩
  · rw [StructDecl.foundedType]
    simp only [StructDecl.foundedStruct, not_exists, not_and]
  · exact StructDecl.canonicalEnds complete covers

def shopSources : Workspace :=
  ⟨"/work", [("main.yaml", "contracts:
- name: Shop
  structs: [\x7bname: Item, members: [\x7bname: part, type: Item\x7d]\x7d]
  functions: [\x7bname: sell, params: [\x7bname: item, type: Item\x7d]\x7d]
")]⟩

def stuckAt? (w : Workspace) (path : String) : Option String :=
  match load decode w path with
  | .error (.endlessSignature f) => some f
  | _ => none

theorem loadStuck {w : Workspace} {path f : String} (stuck : stuckAt? w path = some f) :
    load decode w path = .error (.endlessSignature f) := by
  unfold stuckAt? at stuck
  split at stuck
  · rename_i same
    cases stuck
    exact same
  · cases stuck

theorem shopNeverLoads : load decode shopSources "main.yaml" = .error (.endlessSignature "sell") ∧
    ∃ p, sources decode shopSources "main.yaml" = .ok p ∧ p.complaints = [] ∧ ∃ c ∈ (counted p.sources).contracts,
      ∃ e ∈ c.entry.functions, e.id = none ∧ ∃ v ∈ e.params ++ e.returns,
        ¬ Founded (Spells (structTable p.sources)) (writtenType (structNames p.sources) v) := by
  have stuck : load decode shopSources "main.yaml" = .error (.endlessSignature "sell") := loadStuck (by decide +kernel)
  exact ⟨stuck, (loadingEnds decode shopSources "main.yaml").2.2.2.1 ⟨"sell", stuck⟩⟩

end CellChain.Description
