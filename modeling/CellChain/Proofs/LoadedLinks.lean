import Mathlib
import CellChain.Proofs.Ancestry
import CellChain.Proofs.LoadedTypes
/-! How the contracts of a loaded unit hang together. Names tell contracts apart, the order of a contract holds the
orders of its ancestors, and a function overrides functions of its own name that the order of its contract
reaches. -/
namespace CellChain

structure SourceUnit.Linked (u : SourceUnit) : Prop where
  distinct : (u.contracts.map Contract.name).Nodup
  order : ∀ c ∈ u.contracts, c.linearized = c.name :: c.linearized.tail ∧ c.linearized.Nodup
  ancestors : ∀ c ∈ u.contracts, ∀ n ∈ c.linearized, ∃ b, u.contract? n = some b ∧ b.linearized ⊆ c.linearized
  overrides : ∀ c ∈ u.contracts, ∀ f ∈ c.functions, ∀ r ∈ f.overrides,
    r.contract ∈ c.linearized.tail ∧ ∃ g, u.function? r = some g ∧ g.name = f.name ∧ g.kind = .function

namespace Description

variable {α β : Type}

def Grows (x : Reviewed α) : Prop := ∀ before, (x before).2 = [] → before = []

/- The result has `P`, unless something was complained of. -/
def Unless (P : α → Prop) (x : Reviewed α) : Prop := ∀ before, (x before).2 = [] → P (x before).1

namespace Grows

theorem pure (a : α) : Grows (Pure.pure a : Reviewed α) := fun _ none => none

theorem bind {x : Reviewed α} {f : α → Reviewed β} (first : Grows x) (second : ∀ a, Grows (f a)) :
    Grows (x >>= f) :=
  fun before none => first before (second _ _ none)

theorem complain (place : Place) (fault : Fault) : Grows (complain place fault) :=
  fun before none => (List.append_eq_nil_iff.1 (show before ++ [_] = [] from none)).1

theorem each {step : α → Reviewed β} (h : ∀ a, Grows (step a)) (list : List α) :
    Grows (Description.each step list) := by
  induction list with
  | nil => exact pure []
  | cons a rest ih => exact bind (h a) fun b => bind ih fun others => pure (b :: others)

end Grows

namespace Unless

theorem pure {P : α → Prop} {a : α} (h : P a) : Unless P (Pure.pure a) := fun _ _ => h

theorem bind {P : α → Prop} {Q : β → Prop} {x : Reviewed α} {f : α → Reviewed β} (first : Unless P x)
    (grows : ∀ a, Grows (f a)) (second : ∀ a, P a → Unless Q (f a)) : Unless Q (x >>= f) :=
  fun before none => second _ (first before (grows _ _ none)) _ none

theorem after {P : α → Prop} {Q : β → Prop} {x : Reviewed α} {f : α → Reviewed β} (first : Always P x)
    (second : ∀ a, P a → Unless Q (f a)) : Unless Q (x >>= f) :=
  fun before none => second _ (first before) _ none

theorem complained {Q : β → Prop} {place : Place} {fault : Fault} {f : Unit → Reviewed β}
    (grows : ∀ a, Grows (f a)) : Unless Q (complain place fault >>= f) := by
  intro before none
  have empty : before ++ [_] = [] := grows _ _ none
  cases (List.append_eq_nil_iff.1 empty).2

end Unless

theorem Always.pairs {R : α → β → Prop} {step : α → Reviewed β} {list : List α}
    (h : ∀ a ∈ list, Always (R a) (step a)) : Always (List.Forall₂ R list) (Description.each step list) := by
  induction list with
  | nil => exact .pure .nil
  | cons a rest ih =>
    refine .bind (h a List.mem_cons_self) fun b own => ?_
    refine .bind (ih fun x inside => h x (List.mem_cons_of_mem _ inside)) fun others all => .pure ?_
    exact .cons own all

theorem partnerZip {R : α → β → Prop} {xs : List α} {ys : List β} (h : List.Forall₂ R xs ys) {x : α}
    (inside : x ∈ xs) : ∃ y, (y, x) ∈ ys.zip xs ∧ R x y := by
  induction h with
  | nil => cases inside
  | cons own _ ih =>
    cases inside with
    | head => exact ⟨_, List.mem_cons_self, own⟩
    | tail _ later =>
      obtain ⟨y, found, holds⟩ := ih later
      exact ⟨y, List.mem_cons_of_mem _ found, holds⟩

theorem partnerOfMem {R : α → β → Prop} {xs : List α} {ys : List β} (h : List.Forall₂ R xs ys) {x : α}
    (inside : x ∈ xs) : ∃ y ∈ ys, R x y := by
  obtain ⟨y, pair, holds⟩ := partnerZip h inside
  exact ⟨y, (List.of_mem_zip pair).1, holds⟩

theorem partnersAgree {R : α → β → Prop} {γ : Type} {f : α → γ} {g : β → γ} {xs : List α} {ys : List β}
    (h : List.Forall₂ R xs ys) (same : ∀ x y, R x y → g y = f x) : ys.map g = xs.map f := by
  induction h with
  | nil => rfl
  | cons own _ ih => rw [List.map_cons, List.map_cons, same _ _ own, ih]

def Declared.Distinct (d : Declared) : Prop := (d.contracts.map (·.entry.name)).Nodup

theorem declareStructsContracts (path : String) (structs : List StructEntry) (d : Declared) :
    Always (fun p => p.1.contracts = d.contracts) (declareStructs path structs d) := by
  induction structs generalizing d with
  | nil => exact .pure rfl
  | cons s rest ih =>
    unfold declareStructs
    refine .bind (P := fun p => p.1.contracts = d.contracts) ?_ fun p same => ?_
    · unfold declareStruct
      split
      · exact .bind (.any _) fun _ _ => .pure rfl
      · exact .pure rfl
    · exact .bind (ih p.1) fun q others => .pure (others.trans same)

theorem declareContractDistinct {path : String} {d : Declared} {c : ContractEntry} (distinct : d.Distinct) :
    Always Declared.Distinct (declareContract path d c) := by
  unfold declareContract
  simp only
  split
  · exact .bind (.any _) fun _ _ => .pure distinct
  · split
    · exact .bind (.any _) fun _ _ => .pure distinct
    · rename_i fresh
      refine .bind (declareStructsContracts path c.structs d) fun after same => .pure ?_
      have new : c.name ∉ d.contracts.map (·.entry.name) := by
        intro taken
        obtain ⟨first, inside, equal⟩ := List.mem_map.1 taken
        exact List.find?_eq_none.1 fresh first inside (beq_iff_eq.2 equal)
      unfold Declared.Distinct
      rw [List.map_append, same, List.map_singleton, ← List.concat_eq_append]
      exact .concat new distinct

theorem declareAllDistinct {entries : List (Located ContractEntry)} {d : Declared} (distinct : d.Distinct) :
    Always Declared.Distinct (declareAll entries d) := by
  induction entries generalizing d with
  | nil => exact .pure distinct
  | cons c rest ih => exact .bind (declareContractDistinct distinct) fun d' kept => ih kept

structure Read (e : ContractEntry) (c : Contract) : Prop where
  name : c.name = e.name
  functions : c.functions.length = e.functions.length
  unlinked : ∀ f ∈ c.functions, f.overrides = []

theorem readFunctionUnlinked (declared : List String) (table : List StructDecl) (version : Int) (path : String)
    (f : FunctionEntry) : Always (fun f => f.overrides = []) (readFunction declared table version path f) := by
  unfold readFunction
  refine .bind (.any _) fun _ _ => .bind (.any _) fun _ _ => .bind (.any _) fun _ _ => ?_
  exact .bind (.any _) fun _ _ => .bind (.any _) fun _ _ => .pure rfl

theorem readContractRead (declared : List String) (table : List StructDecl) (version : Int)
    (e : Located ContractEntry) : Always (Read e.entry) (readContract declared table version e) := by
  unfold readContract
  refine .bind (.any _) fun state _ => ?_
  refine .bind (.pairs fun f _ => readFunctionUnlinked declared table version e.path f) fun functions all => .pure ?_
  refine ⟨rfl, all.length_eq.symm, ?_⟩
  intro f inside
  obtain ⟨_, -, unlinked⟩ := partnerOfMem all.flip inside
  exact unlinked

theorem putInOrderGrows (graph : Lineage.Graph) (contracts : List Contract) (p : Lineage.Progress) :
    Grows (putInOrder graph contracts p) := by
  induction contracts generalizing p with
  | nil => exact .pure []
  | cons c rest ih =>
    unfold putInOrder
    split
    · exact .bind (ih _) fun _ => .pure _
    · exact .bind (.complain _ _) fun _ => .bind (ih _) fun _ => .pure _

theorem putInOrderOrders {graph : Lineage.Graph} {entries : List ContractEntry} {contracts : List Contract}
    {p : Lineage.Progress} (read : List.Forall₂ Read entries contracts) (idle : Lineage.Idle graph p) :
    Unless (fun ordered => ∃ after : Lineage.Known, after.Sound graph ∧ p.known.Extends after ∧
      List.Forall₂ (fun e c => Read e c ∧ after.lookup c.name = some c.linearized) entries ordered)
      (putInOrder graph contracts p) := by
  induction read generalizing p with
  | nil => exact .pure ⟨p.known, idle.sound, .refl p.known, .nil⟩
  | cons own _ ih =>
    unfold putInOrder
    split
    · rename_i line middle found
      have finds := idle.finds found
      refine .bind (ih (idle.ok found)) (fun _ => .pure _) fun others rest => .pure ?_
      obtain ⟨after, keeps, more, all⟩ := rest
      refine ⟨after, keeps, finds.more.trans more, .cons ⟨?_, more _ _ finds.found⟩ all⟩
      exact ⟨own.name, own.functions, own.unlinked⟩
    · exact .complained fun _ => .bind (putInOrderGrows graph _ _) fun _ => .pure _

theorem nearestFound {contracts : List Contract} {b : Contract} {name : String} {r : FunctionRef}
    (found : nearest? contracts b name = some r) :
    r.contract ∈ b.linearized ∧ ∃ owner f, contracts.find? (·.name == r.contract) = some owner ∧
      owner.functions[r.index]? = some f ∧ f.name = name ∧ f.kind = .function := by
  obtain ⟨n, inside, here⟩ := List.exists_of_findSome?_eq_some found
  obtain ⟨owner, declared, here⟩ := Option.bind_eq_some_iff.1 here
  obtain ⟨k, index, here⟩ := Option.bind_eq_some_iff.1 here
  cases here
  obtain ⟨bound, holds, -⟩ := List.findIdx?_eq_some_iff_getElem.1 index
  simp only [Bool.and_eq_true, beq_iff_eq] at holds
  exact ⟨inside, owner, _, declared, List.getElem?_eq_getElem bound, holds.1, holds.2⟩

theorem overriddenFound {contracts : List Contract} {name : String} {found : List FunctionRef}
    {bases : List String} {r : FunctionRef} (inside : r ∈ overridden contracts name found bases) :
    r ∈ found ∨ ∃ base ∈ bases, ∃ b, contracts.find? (·.name == base) = some b ∧
      nearest? contracts b name = some r := by
  induction bases generalizing found with
  | nil => exact .inl inside
  | cons base rest ih =>
    unfold overridden at inside
    split at inside
    · rename_i s here
      obtain ⟨b, declared, near⟩ := Option.bind_eq_some_iff.1 here
      rcases ih inside with before | ⟨later, member, known⟩
      · have either : r ∈ found ∨ r = s := by
          split at before
          · exact .inl before
          · simpa using before
        rcases either with old | rfl
        · exact .inl old
        · exact .inr ⟨base, List.mem_cons_self, b, declared, near⟩
      · exact .inr ⟨later, List.mem_cons_of_mem _ member, known⟩
    · rcases ih inside with before | ⟨later, member, known⟩
      · exact .inl before
      · exact .inr ⟨later, List.mem_cons_of_mem _ member, known⟩

structure Links (contracts : List Contract) (bases : List String) (c l : Contract) : Prop where
  name : l.name = c.name
  line : l.linearized = c.linearized
  functions : l.functions.map (fun f => (f.name, f.kind)) = c.functions.map fun f => (f.name, f.kind)
  overrides : ∀ f ∈ l.functions, ∀ r ∈ f.overrides, r ∈ overridden contracts f.name [] bases

theorem linkFunctionLinks {contracts : List Contract} {bases : List String} {f : Function} {e : FunctionEntry}
    (unlinked : f.overrides = []) :
    Always (fun l => (l.name, l.kind) = (f.name, f.kind) ∧
      ∀ r ∈ l.overrides, r ∈ overridden contracts l.name [] bases) (linkFunction contracts bases f e) := by
  refine (linkFunctionCases contracts bases f e).mono fun l same => ?_
  rcases same with rfl | rfl
  · exact ⟨rfl, by simp [unlinked]⟩
  · exact ⟨rfl, fun _ inside => inside⟩

theorem linkContractLinks {contracts : List Contract} {e : ContractEntry} {c : Contract} (read : Read e c) :
    Always (Links contracts e.bases c) (linkContract contracts c e) := by
  unfold linkContract
  split
  · exact .pure ⟨rfl, rfl, rfl, fun f inside => by simp [read.unlinked f inside]⟩
  · refine .bind (.pairs (R := fun p l => (l.name, l.kind) = (p.1.name, p.1.kind) ∧
      ∀ r ∈ l.overrides, r ∈ overridden contracts l.name [] e.bases) ?_) fun functions all => .pure ?_
    · intro p inside
      exact linkFunctionLinks (read.unlinked p.1 (List.of_mem_zip inside).1)
    · refine ⟨rfl, rfl, ?_, ?_⟩
      · rw [partnersAgree all fun p l own => own.1]
        change (c.functions.zip e.functions).map ((fun f => (f.name, f.kind)) ∘ Prod.fst) = _
        rw [← List.map_map, List.map_fst_zip read.functions.le]
      · intro f inside
        obtain ⟨p, -, own⟩ := partnerOfMem all.flip inside
        exact own.2

theorem linkFunctionGrows (contracts : List Contract) (bases : List String) (f : Function) (e : FunctionEntry) :
    Grows (linkFunction contracts bases f e) := by
  unfold linkFunction
  split
  · simp only
    split
    · exact .bind (.complain _ _) fun _ => .pure _
    · exact .pure _
  · exact .pure f

theorem linkContractGrows (contracts : List Contract) (c : Contract) (e : ContractEntry) :
    Grows (linkContract contracts c e) := by
  unfold linkContract
  split
  · exact .pure c
  · refine .bind (.each ?_ _) fun _ => .pure _
    intro p
    exact linkFunctionGrows contracts e.bases p.1 p.2

/- Contracts that are declared, put in order and linked. -/
structure Assembled (known : Lineage.Known) (entries : List ContractEntry) (ordered linked : List Contract) :
    Prop where
  distinct : (entries.map ContractEntry.name).Nodup
  sound : known.Sound (entries.map fun e => (e.name, e.bases))
  orders : List.Forall₂ (fun e c => Read e c ∧ known.lookup c.name = some c.linearized) entries ordered
  links : List.Forall₂ (fun p l => Links ordered p.2.bases p.1 l) (ordered.zip entries) linked

theorem assembleLinks (sources : List Source) (main : Source) :
    Unless (fun u => ∃ known entries ordered, Assembled known entries ordered u.contracts)
      (assemble sources main) := by
  unfold assemble
  refine .after (declareAllDistinct (d := {}) List.nodup_nil) fun d distinct => ?_
  refine .after (.any _) fun table _ => .after (.any _) fun _ _ => ?_
  refine .after (.pairs fun e _ => readContractRead _ table _ e) fun contracts read => ?_
  have read := List.forall₂_map_left_iff.2 read
  refine .bind (putInOrderOrders read (Lineage.startIdle _)) ?_ ?_
  · intro ordered
    refine .bind (.each ?_ _) fun _ => .pure _
    intro p
    exact linkContractGrows ordered p.1 p.2
  · intro ordered ended
    obtain ⟨known, sound, -, orders⟩ := ended
    refine .after (.pairs (R := fun p l => Links ordered p.2.bases p.1 l) ?_) fun linked links => .pure ?_
    · intro p inside
      exact linkContractLinks (List.forall₂_zip orders.flip inside).1
    · refine ⟨known, d.contracts.map Located.entry, ordered, ?_, ?_, orders, links⟩
      · rw [List.map_map]
        exact distinct
      · rw [List.map_map]
        exact sound

theorem lookupEntry {entries : List ContractEntry} (distinct : (entries.map ContractEntry.name).Nodup)
    {e : ContractEntry} (mem : e ∈ entries) :
    (entries.map fun e => (e.name, e.bases)).lookup e.name = some e.bases := by
  induction entries with
  | nil => cases mem
  | cons first rest ih =>
    obtain ⟨new, others⟩ := List.nodup_cons.1 distinct
    cases mem with
    | head => exact List.lookup_cons_self
    | tail _ later =>
      have other : e.name ≠ first.name := fun same => new (same ▸ List.mem_map_of_mem later)
      rw [List.map_cons, List.lookup_cons, beq_false_of_ne other]
      exact ih others later

theorem findContract {contracts : List Contract} (distinct : (contracts.map Contract.name).Nodup) {c : Contract}
    (mem : c ∈ contracts) : contracts.find? (·.name == c.name) = some c := by
  induction contracts with
  | nil => cases mem
  | cons first rest ih =>
    obtain ⟨new, others⟩ := List.nodup_cons.1 distinct
    cases mem with
    | head => exact List.find?_cons_of_pos (beq_iff_eq.2 rfl)
    | tail _ later =>
      have other : first.name ≠ c.name := fun same => new (same ▸ List.mem_map_of_mem later)
      rw [List.find?_cons_of_neg (by simpa using other)]
      exact ih others later

theorem foundContract {contracts : List Contract} {n : String} {c : Contract}
    (found : contracts.find? (·.name == n) = some c) : c ∈ contracts ∧ c.name = n := by
  have name := List.find?_some found
  exact ⟨List.mem_of_find?_eq_some found, beq_iff_eq.1 name⟩

namespace Assembled

variable {known : Lineage.Known} {entries : List ContractEntry} {ordered linked : List Contract}

theorem sizes (h : Assembled known entries ordered linked) : ordered.length ≤ entries.length :=
  h.orders.length_eq.ge

theorem names (h : Assembled known entries ordered linked) :
    linked.map Contract.name = entries.map ContractEntry.name := by
  have first : ordered.map Contract.name = entries.map ContractEntry.name :=
    partnersAgree h.orders fun e c own => own.1.name
  have second : linked.map Contract.name = (ordered.zip entries).map (Contract.name ∘ Prod.fst) :=
    partnersAgree h.links fun p l own => own.name
  rw [second, ← List.map_map, List.map_fst_zip h.sizes, first]

theorem origin (h : Assembled known entries ordered linked) {l : Contract} (mem : l ∈ linked) :
    ∃ e ∈ entries, ∃ c, Read e c ∧ known.lookup c.name = some c.linearized ∧ Links ordered e.bases c l := by
  obtain ⟨p, inside, links⟩ := partnerOfMem h.links.flip mem
  obtain ⟨read, line⟩ := List.forall₂_zip h.orders.flip inside
  exact ⟨p.2, (List.of_mem_zip inside).2, p.1, read, line, links⟩

theorem outcome (h : Assembled known entries ordered linked) {c : Contract} (mem : c ∈ ordered) :
    ∃ l ∈ linked, ∃ e ∈ entries, Links ordered e.bases c l := by
  rw [← List.map_fst_zip h.sizes] at mem
  obtain ⟨p, inside, rfl⟩ := List.mem_map.1 mem
  obtain ⟨l, found, links⟩ := partnerOfMem h.links inside
  exact ⟨l, found, p.2, (List.of_mem_zip inside).2, links⟩

theorem contractOfLine {u : SourceUnit} (h : Assembled known entries ordered u.contracts) {n : String}
    {line : List String} (found : known.lookup n = some line) :
    ∃ l, u.contract? n = some l ∧ l.linearized = line := by
  obtain ⟨direct, _, _, declared, -⟩ := (h.sound n line found).merged
  obtain ⟨before, after, same, -⟩ := List.lookup_eq_some_iff.1 declared
  have among : (n, direct) ∈ entries.map fun e => (e.name, e.bases) := by rw [same]; simp
  obtain ⟨e, inside, pair⟩ := List.mem_map.1 among
  cases pair
  have named : e.name ∈ u.contracts.map Contract.name := h.names ▸ List.mem_map_of_mem inside
  obtain ⟨l, mem, name⟩ := List.mem_map.1 named
  obtain ⟨_, -, c, -, line', links⟩ := h.origin mem
  refine ⟨l, name ▸ findContract (h.names ▸ h.distinct) mem, ?_⟩
  rw [← links.name, name, found] at line'
  cases line'
  exact links.line

theorem baseWithin (h : Assembled known entries ordered linked) {e : ContractEntry} (entry : e ∈ entries)
    {line : List String} (found : known.lookup e.name = some line) {base : String} (listed : base ∈ e.bases)
    {b : Contract} (declared : ordered.find? (·.name == base) = some b) : b.linearized ⊆ line.tail := by
  obtain ⟨mem, name⟩ := foundContract declared
  obtain ⟨_, -, -, own⟩ := partnerOfMem h.orders.flip mem
  obtain ⟨above, known', part⟩ := (h.sound _ line found).base (lookupEntry h.distinct entry) base listed
  rw [name, known'] at own
  cases own
  exact part.subset

theorem functionOf {u : SourceUnit} (h : Assembled known entries ordered u.contracts) {r : FunctionRef}
    {owner : Contract} {f : Function} (declared : ordered.find? (·.name == r.contract) = some owner)
    (here : owner.functions[r.index]? = some f) :
    ∃ g, u.function? r = some g ∧ g.name = f.name ∧ g.kind = f.kind := by
  obtain ⟨among, name⟩ := foundContract declared
  obtain ⟨l, mem, _, -, links⟩ := h.outcome among
  have found : u.contract? r.contract = some l := by
    rw [← name, ← links.name]
    exact findContract (h.names ▸ h.distinct) mem
  have same := congrArg (fun list => list[r.index]?) links.functions
  rw [List.getElem?_map, List.getElem?_map, here] at same
  obtain ⟨g, index, equal⟩ := Option.map_eq_some_iff.1 same
  refine ⟨g, ?_, congrArg Prod.fst equal, congrArg Prod.snd equal⟩
  rw [SourceUnit.function?, found]
  exact index

theorem isLinked {u : SourceUnit} (h : Assembled known entries ordered u.contracts) : u.Linked := by
  have distinct : (u.contracts.map Contract.name).Nodup := h.names ▸ h.distinct
  refine ⟨distinct, ?_, ?_, ?_⟩
  · intro l mem
    obtain ⟨_, -, c, -, line, links⟩ := h.origin mem
    rw [links.name, links.line]
    exact ⟨(h.sound _ _ line).starts, h.sound.nodup line⟩
  · intro l mem n inside
    obtain ⟨_, -, c, -, line, links⟩ := h.origin mem
    rw [links.line] at inside ⊢
    rw [(h.sound _ _ line).starts] at inside
    cases inside with
    | head =>
      obtain ⟨b, declared, same⟩ := h.contractOfLine line
      exact ⟨b, declared, fun m member => same ▸ member⟩
    | tail _ behind =>
      obtain ⟨own, found, part⟩ := h.sound.behind line n behind
      obtain ⟨b, declared, rfl⟩ := h.contractOfLine found
      exact ⟨b, declared, fun m member => List.mem_of_mem_tail (part.subset member)⟩
  · intro l mem f inside r target
    obtain ⟨e, entry, c, read, line, links⟩ := h.origin mem
    rcases overriddenFound (links.overrides f inside r target) with none | ⟨base, listed, b, declared, near⟩
    · cases none
    · obtain ⟨reached, owner, g, here, index, name, kind⟩ := nearestFound near
      obtain ⟨g', found, name', kind'⟩ := h.functionOf here index
      rw [read.name] at line
      refine ⟨?_, g', found, name'.trans name, kind'.trans kind⟩
      rw [links.line]
      exact h.baseWithin entry line listed declared reached

end Assembled

theorem loadLinked {decoder : Decoder} {w : Workspace} {path : String} {u : SourceUnit}
    (loaded : load decoder w path = .ok u) : u.Linked := by
  obtain ⟨p, -, ⟨-, none⟩ | ⟨main, assembled, -⟩⟩ := loadOk loaded
  · constructor <;> rw [none]
    · exact List.nodup_nil
    all_goals exact nofun
  · have links : ((assemble p.sources main).run []).2 = [] →
        ∃ known entries ordered, Assembled known entries ordered ((assemble p.sources main).run []).1.contracts :=
      assembleLinks p.sources main []
    rw [assembled] at links
    obtain ⟨_, _, _, whole⟩ := links rfl
    exact whole.isLinked

end Description

end CellChain
