import Mathlib
import CellChain.Code.Record
import CellChain.Description.Unit
import CellChain.Proofs.Emission
/-! The types of a unit that was loaded. Integers have widths from 1 to 256, and the members of every struct have
names that differ: the reader of type expressions and the reader of members see to it, and writing structs out
keeps it. -/
namespace CellChain

namespace Ty

mutual
def Sound : Ty → Prop
  | .integer _ bits => 1 ≤ bits ∧ bits ≤ 256
  | .mapping _ value => value.Sound
  | .array element => element.Sound
  | .struct _ names types => names.length = types.length ∧ Record.repeated? [] names = none ∧ SoundAll types
  | .tuple types => SoundAll types
  | _ => True

def SoundAll : List Ty → Prop
  | [] => True
  | t :: rest => t.Sound ∧ SoundAll rest
end

theorem soundAll {types : List Ty} : SoundAll types ↔ ∀ t ∈ types, t.Sound := by
  induction types with
  | nil => simp [SoundAll]
  | cons t rest ih => simp [SoundAll, ih]

def isPlain {ν : Type} : Ty ν → Bool
  | .integer .. | .bool | .bytes _ | .cell | .address | .other _ => true
  | _ => false

theorem builtInCases {ν : Type} {name : Bytes} {t : Ty ν} (found : builtIn? name = some t) :
    t = .bool ∨ t = .address ∨ t = .cell ∨ (∃ n, t = .bytes n) ∨ ∃ n, t = .other n := by
  unfold builtIn? at found
  split_ifs at found
  · cases found; simp
  · cases found; simp
  · cases found; simp
  · cases found; simp
  · cases found; simp
  · obtain ⟨n, -, rfl⟩ := Option.map_eq_some_iff.1 found
    simp

theorem builtInPlain {ν : Type} {name : Bytes} {t : Ty ν} (found : builtIn? name = some t) : t.isPlain = true := by
  rcases builtInCases found with rfl | rfl | rfl | ⟨n, rfl⟩ | ⟨n, rfl⟩ <;> rfl

/- Readers of type expressions keep to what is true of words, of struct names and of types put together. -/
structure Kept {ν : Type} (P : Ty ν → Prop) : Prop where
  builtIn : ∀ {name t}, builtIn? name = some t → P t
  integer : ∀ {signed bits}, 1 ≤ bits → bits ≤ 256 → P (.integer signed bits)
  array : ∀ {element}, P element → P (.array element)
  mapping : ∀ {key value}, P key → P value → P (.mapping key value)
  tuple : ∀ {types}, (∀ t ∈ types, P t) → P (.tuple types)

namespace Kept

variable {ν : Type} {P : Ty ν → Prop} {total : Nat} {lookup : Bytes → Option (Ty ν)} (kept : Kept P)

section
variable (named : ∀ n t, (∀ b ∈ n, isNameByte b = true) → lookup n = some t → P t)
include named

theorem structNamed {name s rest : Bytes} {t : Ty ν} (letters : ∀ b ∈ name, isNameByte b = true)
    (ok : Ty.structNamed lookup name s = .ok (t, rest)) : P t := by
  unfold Ty.structNamed at ok
  split at ok
  · rename_i found
    cases ok
    exact named _ _ letters found
  · cases ok

include kept

theorem word {name s rest : Bytes} {t : Ty ν} (letters : ∀ b ∈ name, isNameByte b = true)
    (ok : Ty.word lookup name s = .ok (t, rest)) : P t := by
  unfold Ty.word at ok
  split at ok
  · rename_i found
    cases ok
    exact kept.builtIn found
  · split at ok
    · split at ok
      · rename_i range
        cases ok
        exact kept.integer (by omega) (by omega)
      · cases ok
    · exact structNamed named letters ok

end

include kept

theorem arraySuffix {fuel : Nat} {t u : Ty ν} {s rest : Bytes} (own : P t)
    (ok : Ty.arraySuffix total fuel t s = .ok (u, rest)) : P u := by
  induction fuel generalizing t s with
  | zero =>
    cases ok
    exact own
  | succ fuel ih =>
    unfold Ty.arraySuffix Ty.suffixes at ok
    split at ok
    · cases ok
      exact own
    · obtain ⟨after, -, ok⟩ := okOfBind ok
      exact ih (kept.array own) ok

section
variable {recur : Bytes → Except ParseError (Ty ν × Bytes)} (inner : ∀ s t rest, recur s = .ok (t, rest) → P t)
include inner

theorem mappingBody {s rest : Bytes} {t : Ty ν} (ok : Ty.mappingBody total recur s = .ok (t, rest)) : P t := by
  obtain ⟨_, -, ok⟩ := okOfBind ok
  obtain ⟨⟨key, _⟩, first, ok⟩ := okOfBind ok
  obtain ⟨_, -, ok⟩ := okOfBind ok
  obtain ⟨⟨value, _⟩, second, ok⟩ := okOfBind ok
  obtain ⟨_, -, ok⟩ := okOfBind ok
  cases ok
  exact kept.mapping (inner _ _ _ first) (inner _ _ _ second)

omit kept in
theorem components {fuel : Nat} {s rest : Bytes} {types : List (Ty ν)}
    (ok : Ty.components total recur fuel s = .ok (types, rest)) : ∀ t ∈ types, P t := by
  induction fuel generalizing s types with
  | zero => cases ok
  | succ fuel ih =>
    obtain ⟨⟨t, after⟩, read, ok⟩ := okOfBind ok
    have own := inner _ _ _ read
    simp only at ok
    split at ok
    · cases ok
      exact List.forall_mem_singleton.2 own
    · obtain ⟨_, -, ok⟩ := okOfBind ok
      obtain ⟨⟨others, _⟩, listed, ok⟩ := okOfBind ok
      cases ok
      exact List.forall_mem_cons.2 ⟨own, ih listed⟩

theorem tupleBody {s rest : Bytes} {t : Ty ν} (ok : Ty.tupleBody total recur s = .ok (t, rest)) : P t := by
  obtain ⟨_, -, ok⟩ := okOfBind ok
  split at ok
  · cases ok
    exact kept.tuple (List.forall_mem_nil _)
  · obtain ⟨⟨types, _⟩, listed, ok⟩ := okOfBind ok
    cases ok
    exact kept.tuple (components inner listed)

theorem base (named : ∀ n t, (∀ b ∈ n, isNameByte b = true) → lookup n = some t → P t) {s rest : Bytes} {t : Ty ν}
    (ok : Ty.base total lookup recur s = .ok (t, rest)) : P t := by
  have letters (s : Bytes) : ∀ b ∈ (takeName s).1, isNameByte b = true := fun b => List.mem_takeWhile_imp
  unfold Ty.base at ok
  simp only at ok
  split_ifs at ok
  · exact kept.mappingBody inner ok
  · exact kept.tupleBody inner ok
  · exact structNamed named (letters _) ok
  · exact kept.word named (letters _) ok

end

theorem parseType (named : ∀ n t, (∀ b ∈ n, isNameByte b = true) → lookup n = some t → P t) {fuel : Nat}
    {s rest : Bytes} {t : Ty ν} (ok : Ty.parseType total lookup fuel s = .ok (t, rest)) : P t := by
  induction fuel generalizing s t rest with
  | zero => cases ok
  | succ fuel ih =>
    obtain ⟨⟨first, after⟩, read, ok⟩ := okOfBind ok
    exact kept.arraySuffix (kept.base (fun _ _ _ inner => ih inner) named read) ok

theorem parseBytes (named : ∀ n t, (∀ b ∈ n, isNameByte b = true) → lookup n = some t → P t) {s : Bytes} {t : Ty ν}
    (ok : Ty.parseBytes lookup s = .ok t) : P t := by
  obtain ⟨⟨read, rest⟩, parsed, ok⟩ := okOfBind ok
  unfold Ty.finish at ok
  simp only at ok
  split at ok
  · cases ok
    exact kept.parseType named parsed
  · cases ok

end Kept

theorem builtInSound {name : Bytes} {t : Ty} (found : builtIn? name = some t) : t.Sound := by
  rcases builtInCases found with rfl | rfl | rfl | ⟨n, rfl⟩ | ⟨n, rfl⟩ <;> trivial

theorem soundKept : Kept Sound where
  builtIn := builtInSound
  integer := fun low high => by simp only [Sound]; exact ⟨low, high⟩
  array := fun own => by simpa only [Sound] using own
  mapping := fun _ own => by simpa only [Sound] using own
  tuple := fun all => by simpa only [Sound] using soundAll.2 all

end Ty

namespace StructDecl

structure Sound (s : StructDecl) : Prop where
  count : s.members.length = s.types.length
  distinct : Record.repeated? [] s.members = none
  types : ∀ t ∈ s.types, t.Sound

theorem replaceAllLength {f : String → Ty} {types : List Ty} : (replaceAll f types).length = types.length := by
  induction types with
  | nil => rfl
  | cons t rest ih => simp [replaceAll, ih]

mutual
theorem replaceSound {f : String → Ty} (named : ∀ n, (f n).Sound) : (t : Ty) → t.Sound → (replace f t).Sound
  | .named n, _ => by simpa only [replace] using named n
  | .mapping _ value, sound => by
    simp only [replace, Ty.Sound] at sound ⊢
    exact replaceSound named value sound
  | .array element, sound => by
    simp only [replace, Ty.Sound] at sound ⊢
    exact replaceSound named element sound
  | .tuple types, sound => by
    simp only [replace, Ty.Sound] at sound ⊢
    exact replaceAllSound named types sound
  | .struct name members types, sound => by
    simp only [replace, Ty.Sound, replaceAllLength] at sound ⊢
    exact ⟨sound.1, sound.2.1, replaceAllSound named types sound.2.2⟩
  | .integer .., sound => by simpa only [replace] using sound
  | .bool, sound | .bytes _, sound | .cell, sound | .address, sound | .other _, sound => by
    simpa only [replace] using sound

theorem replaceAllSound {f : String → Ty} (named : ∀ n, (f n).Sound) :
    (types : List Ty) → Ty.SoundAll types → Ty.SoundAll (replaceAll f types)
  | [], _ => trivial
  | t :: rest, sound => ⟨replaceSound named t sound.1, replaceAllSound named rest sound.2⟩
end

theorem expandSound {table : List StructDecl} (sound : ∀ s ∈ table, s.Sound) (n : Nat) (path : List String)
    (name : String) : (expand table n path name).Sound := by
  induction n generalizing path name with
  | zero => trivial
  | succ n ih =>
    unfold expand
    split
    · trivial
    · split
      · trivial
      · rename_i s found
        have declared := sound s (List.mem_of_find?_eq_some found)
        simp only [Ty.Sound, replaceAllLength]
        exact ⟨declared.count, declared.distinct, replaceAllSound (ih (name :: path)) _ (Ty.soundAll.2 declared.types)⟩

theorem closeSound {table : List StructDecl} (sound : ∀ s ∈ table, s.Sound) {t : Ty} (own : t.Sound) :
    (close table t).Sound :=
  replaceSound (expandSound sound _ []) t own

end StructDecl

structure Contract.Typed (P : Ty → Prop) (c : Contract) : Prop where
  structs : ∀ t ∈ c.structs, P t
  state : ∀ v ∈ c.state, P v.type
  functions : ∀ f ∈ c.functions, ∀ v ∈ f.params ++ f.returns, P v.type

namespace Description

variable {α β : Type}

def Always (P : α → Prop) (x : Reviewed α) : Prop := ∀ complaints, P (x complaints).1

namespace Always

theorem mono {P Q : α → Prop} {x : Reviewed α} (h : Always P x) (weaker : ∀ a, P a → Q a) : Always Q x :=
  fun complaints => weaker _ (h complaints)

theorem and {P Q : α → Prop} {x : Reviewed α} (one : Always P x) (two : Always Q x) : Always (fun a => P a ∧ Q a) x :=
  fun complaints => ⟨one complaints, two complaints⟩

theorem pure {P : α → Prop} {a : α} (h : P a) : Always P (Pure.pure a) := fun _ => h

theorem bind {P : α → Prop} {Q : β → Prop} {x : Reviewed α} {f : α → Reviewed β} (first : Always P x)
    (second : ∀ a, P a → Always Q (f a)) : Always Q (x >>= f) :=
  fun complaints => second _ (first complaints) _

theorem any (x : Reviewed α) : Always (fun _ => True) x := fun _ => trivial

theorem each {P : β → Prop} {step : α → Reviewed β} {list : List α} (h : ∀ a ∈ list, Always P (step a)) :
    Always (fun results => ∀ b ∈ results, P b) (Description.each step list) := by
  induction list with
  | nil => exact pure nofun
  | cons a rest ih =>
    refine bind (h a List.mem_cons_self) ?_
    intro b own
    refine bind (ih fun x inside => h x (List.mem_cons_of_mem _ inside)) ?_
    intro others all
    exact pure (List.forall_mem_cons.2 ⟨own, all⟩)

theorem result {P : α → Prop} {x : Reviewed α} (h : Always P x) {a : α} {complaints : List Complaint}
    (run : x.run [] = (a, complaints)) : P a := by
  have holds : P (x.run []).1 := h []
  rw [run] at holds
  exact holds

end Always

theorem readTypeKept {P : Ty → Prop} (kept : Ty.Kept P) {declared : List String} (named : ∀ n ∈ declared, P (.named n))
    (unread : ∀ text, P (.other text)) (path : String) (v : VariableEntry) : Always P (readType declared path v) := by
  unfold readType
  simp only
  split
  · rename_i t parsed
    refine .pure (kept.parseBytes ?_ parsed)
    intro name t _ found
    obtain ⟨n, first, rfl⟩ := Option.map_eq_some_iff.1 found
    exact named n (List.mem_of_find?_eq_some first)
  · exact .bind (.any _) fun _ _ => .pure (unread v.type)

theorem readTypeSound (declared : List String) (path : String) (v : VariableEntry) :
    Always Ty.Sound (readType declared path v) :=
  readTypeKept Ty.soundKept (fun _ _ => trivial) (fun _ => trivial) path v

theorem readMembersSound (declared : List String) (path owner : String) (entries : List VariableEntry)
    (seen : List String) :
    Always (fun members => Record.repeated? seen (members.map Prod.fst) = none ∧ ∀ m ∈ members, m.2.Sound)
      (readMembers declared path owner seen entries) := by
  induction entries generalizing seen with
  | nil => exact .pure ⟨rfl, nofun⟩
  | cons m rest ih =>
    unfold readMembers
    split
    · exact .bind (.any _) fun _ _ => ih seen
    · rename_i fresh
      refine .bind (readTypeSound declared path m) fun t sound => ?_
      refine .bind (ih (m.name :: seen)) fun others all => .pure ⟨?_, ?_⟩
      · rw [List.map_cons, Record.repeated?, if_neg fresh]
        exact all.1
      · exact List.forall_mem_cons.2 ⟨sound, all.2⟩

theorem readStructSound (declared : List String) (s : Located StructEntry) :
    Always StructDecl.Sound (readStruct declared s) := by
  refine .bind (readMembersSound declared s.path s.entry.name s.entry.members []) fun members all => .pure ?_
  simp only [List.unzip_eq_map]
  refine ⟨by simp, all.1, ?_⟩
  intro t inside
  obtain ⟨m, found, rfl⟩ := List.mem_map.1 inside
  exact all.2 m found

section
variable {P : Ty → Prop} {declared : List String} {table : List StructDecl}
  (types : ∀ path v, Always (fun t => P (StructDecl.close table t)) (readType declared path v))
include types

theorem readVariableTyped (path : String) (v : VariableEntry) :
    Always (fun v => P v.type) (readVariable declared table path v) :=
  .bind (types path v) fun _ own => .pure own

theorem readFunctionTyped (version : Int) (path : String) (f : FunctionEntry) :
    Always (fun f => ∀ v ∈ f.params ++ f.returns, P v.type) (readFunction declared table version path f) := by
  unfold readFunction
  refine .bind (.any _) fun _ _ => .bind (.any _) fun _ _ => .bind (.any _) fun _ _ => ?_
  refine .bind (.each fun v _ => readVariableTyped types path v) fun params first => ?_
  refine .bind (.each fun v _ => readVariableTyped types path v) fun returns second => .pure ?_
  exact List.forall_mem_append.2 ⟨first, second⟩

theorem readContractTyped (version : Int) (c : Located ContractEntry)
    (named : ∀ s ∈ c.entry.structs, P (StructDecl.close table (.named s.name))) :
    Always (Contract.Typed P) (readContract declared table version c) := by
  refine .bind (.each fun v _ => readVariableTyped types c.path v) fun state typed => ?_
  refine .bind (.each fun f _ => readFunctionTyped types version c.path f) fun functions signatures => .pure ?_
  exact ⟨List.forall_mem_map.2 named, typed, signatures⟩

end

section
variable {P : Ty → Prop}

theorem putInOrderTyped {graph : Lineage.Graph} {contracts : List Contract} {p : Lineage.Progress}
    (typed : ∀ c ∈ contracts, c.Typed P) :
    Always (fun ordered => ∀ c ∈ ordered, c.Typed P) (putInOrder graph contracts p) := by
  induction contracts generalizing p with
  | nil => exact .pure nofun
  | cons c rest ih =>
    have own := typed c List.mem_cons_self
    have later : ∀ d ∈ rest, d.Typed P := fun d inside => typed d (List.mem_cons_of_mem _ inside)
    unfold putInOrder
    split
    · refine .bind (ih later) fun others all => .pure (List.forall_mem_cons.2 ⟨?_, all⟩)
      exact ⟨own.structs, own.state, own.functions⟩
    · refine .bind (.any _) fun _ _ => .bind (ih later) fun others all => .pure ?_
      exact List.forall_mem_cons.2 ⟨own, all⟩

theorem linkFunctionCases (contracts : List Contract) (bases : List String) (f : Function) (e : FunctionEntry) :
    Always (fun l => l = f ∨ l = { f with overrides := overridden contracts f.name [] bases })
      (linkFunction contracts bases f e) := by
  unfold linkFunction
  split
  · simp only
    split
    · exact .bind (.any _) fun _ _ => .pure (.inr rfl)
    · exact .pure (.inr rfl)
  · exact .pure (.inl rfl)

theorem linkFunctionTyped {contracts : List Contract} {bases : List String} {f : Function} {e : FunctionEntry}
    (typed : ∀ v ∈ f.params ++ f.returns, P v.type) :
    Always (fun f => ∀ v ∈ f.params ++ f.returns, P v.type) (linkFunction contracts bases f e) := by
  refine (linkFunctionCases contracts bases f e).mono fun l same => ?_
  rcases same with rfl | rfl <;> exact typed

theorem linkContractTyped {contracts : List Contract} {c : Contract} {e : ContractEntry} (typed : c.Typed P) :
    Always (Contract.Typed P) (linkContract contracts c e) := by
  unfold linkContract
  split
  · exact .pure typed
  · refine .bind (P := fun functions => ∀ f ∈ functions, ∀ v ∈ f.params ++ f.returns, P v.type) (.each ?_) ?_
    · intro pair inside
      exact linkFunctionTyped (typed.functions pair.1 (List.of_mem_zip inside).1)
    · intro functions all
      exact .pure ⟨typed.structs, typed.state, all⟩

theorem assembleTyped {D : Declared → Prop} {T : Declared → List StructDecl → Prop} (sources : List Source)
    (main : Source)
    (counts : Always D (declareAll (sources.flatMap fun s => s.description.contracts.map (Located.mk s.path ·)) {}))
    (reads : ∀ d, D d → Always (T d) (each (readStruct (d.structs.map (·.entry.name))) d.structs))
    (types : ∀ d table, T d table → ∀ path v,
      Always (fun t => P (StructDecl.close table t)) (readType (d.structs.map (·.entry.name)) path v))
    (named : ∀ d table, T d table → ∀ c ∈ d.contracts, ∀ s ∈ c.entry.structs,
    P (StructDecl.close table (.named s.name))) :
    Always (fun u => ∀ c ∈ u.contracts, c.Typed P) (assemble sources main) := by
  unfold assemble
  refine .bind counts fun d counted => .bind (reads d counted) fun table read => .bind (.any _) fun _ _ => ?_
  refine .bind (.each fun c inside => readContractTyped (types d table read) _ c (named d table read c inside)) ?_
  intro contracts typed
  refine .bind (putInOrderTyped typed) fun ordered all => .bind (.each ?_) fun linked result => .pure result
  intro pair inside
  exact linkContractTyped (all pair.1 (List.of_mem_zip inside).1)

end

theorem assembleSound (sources : List Source) (main : Source) :
    Always (fun u => ∀ c ∈ u.contracts, c.Typed Ty.Sound) (assemble sources main) :=
  assembleTyped (T := fun _ table => ∀ s ∈ table, s.Sound) sources main (.any _)
    (fun _ _ => .each fun s _ => readStructSound _ s)
    (fun _ _ sound path v => (readTypeSound _ path v).mono fun _ own => StructDecl.closeSound sound own)
    (fun _ _ sound _ _ _ _ => StructDecl.closeSound sound trivial)

theorem loadOk {decoder : Decoder} {w : Workspace} {path : String} {u : SourceUnit}
    (loaded : load decoder w path = .ok u) :
    ∃ p, sources decoder w path = .ok p ∧ (p.sources = [] ∧ u.contracts = [] ∨
      ∃ main, (assemble p.sources main).run [] = (u, []) ∧ endless? p.sources u = none) := by
  unfold load at loaded
  split at loaded
  · cases loaded
  · rename_i p found
    split at loaded
    · cases loaded
    · rename_i none
      cases loaded
      exact ⟨p, found, .inl ⟨List.getLast?_eq_none_iff.1 none, rfl⟩⟩
    · rename_i main _ _
      split at loaded
      rename_i assembled
      split at loaded
      · cases loaded
      · rename_i ends
        cases loaded
        exact ⟨p, found, .inr ⟨main, assembled, ends⟩⟩
      · cases loaded

theorem loadSound {decoder : Decoder} {w : Workspace} {path : String} {u : SourceUnit}
    (loaded : load decoder w path = .ok u) :
    ∀ c ∈ u.contracts, c.Typed Ty.Sound := by
  obtain ⟨p, -, ⟨-, none⟩ | ⟨main, assembled, -⟩⟩ := loadOk loaded
  · rw [none]
    exact nofun
  · exact (assembleSound p.sources main).result assembled

end Description

end CellChain
