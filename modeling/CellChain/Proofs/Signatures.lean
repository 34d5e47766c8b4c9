import Mathlib
import CellChain.Contract.Basic
import CellChain.Proofs.Chains
import CellChain.Proofs.ListedCode
import CellChain.Proofs.LoadedTypes
import CellChain.Proofs.TypeGrammar
/-! Signatures tell functions apart. A name may be any text, so a signature is read from its end: the version is what
follows the last `v`, and a list of types begins at the parenthesis that is open behind its first type. Types that are
written the same differ only in names of structs, members and byte arrays, and in what is a struct and what a tuple. So
they have the same leaves. -/
namespace CellChain

theorem partsAgreeLast {P : Char → Prop} {a a' b b' : List Char} (same : a ++ b = a' ++ b') (each : ∀ c ∈ b, P c)
    (each' : ∀ c ∈ b', P c) (stop : ∀ c ∈ a.getLast?, ¬P c) (stop' : ∀ c ∈ a'.getLast?, ¬P c) : a = a' ∧ b = b' := by
  have mirrored : b.reverse ++ a.reverse = b'.reverse ++ a'.reverse := by
    simpa using congrArg List.reverse same
  obtain ⟨last, first⟩ := partsAgree mirrored (by simpa using each) (by simpa using each')
    (by simpa using stop) (by simpa using stop')
  exact ⟨List.reverse_injective first, List.reverse_injective last⟩

namespace Ty

mutual
def Worded : Ty → Prop
  | .other name => name ∈ opaqueNames
  | .mapping key value => key.Worded ∧ value.Worded
  | .array element => element.Worded
  | .struct _ _ types | .tuple types => WordedAll types
  | _ => True

def WordedAll : List Ty → Prop
  | [] => True
  | t :: rest => t.Worded ∧ WordedAll rest
end

theorem wordedAll {types : List Ty} : WordedAll types ↔ ∀ t ∈ types, t.Worded := by
  induction types with
  | nil => simp [WordedAll]
  | cons t rest ih => simp [WordedAll, ih]

theorem wordedKept : Kept Worded where
  builtIn := by
    intro name t found
    have each : ∀ b ∈ builtIns, b.2.Worded := by simp [builtIns, Worded, opaqueNames]
    obtain ⟨n, known, -⟩ := builtInIff.1 found
    exact each _ known
  integer := fun _ _ => trivial
  array := fun own => by rwa [Worded]
  mapping := fun first second => by rw [Worded]; exact ⟨first, second⟩
  tuple := fun all => by rw [Worded]; exact wordedAll.2 all

theorem bareAllMap (types : List Ty) : bareAll types = types.map bare := by
  induction types with
  | nil => rfl
  | cons t rest ih => rw [bareAll, ih, List.map_cons]

def plainWords : List (String × Ty) :=
  [("bool", .bool), ("cell", .cell), ("address", .address), ("bytes", .bytes ""), ("function", .other "function"),
    ("TvmSlice", .other "TvmSlice"), ("TvmBuilder", .other "TvmBuilder")]

def stemText (signed : Bool) : String := if signed then "int" else "uint"

inductive Word : Ty → String → Prop
  | plain {t : Ty} {w : String} (known : (w, t.bare) ∈ plainWords) : Word t w
  | integer (signed : Bool) (bits : Int) : Word (.integer signed bits) (stemText signed ++ toString bits)

def Inner (c : Char) : Prop := c ∉ ['(', ')', ',', '[', ']']

instance (c : Char) : Decidable (Inner c) := by unfold Inner; infer_instance

theorem innerFigure {c : Char} (figure : Figure c) : Inner c := by
  unfold Inner
  intro mark
  simp only [List.mem_cons, List.not_mem_nil, or_false] at mark
  rcases mark with rfl | rfl | rfl | rfl | rfl <;> revert figure <;> simp [Figure]

theorem Word.inner {t : Ty} {w : String} (word : Word t w) : w.toList ≠ [] ∧ ∀ c ∈ w.toList, Inner c := by
  have each : ∀ w ∈ plainWords.map Prod.fst, w.toList ≠ [] ∧ ∀ c ∈ w.toList, Inner c := by
    simp [plainWords, Inner]
  have stems (signed : Bool) : (stemText signed).toList ≠ [] ∧ ∀ c ∈ (stemText signed).toList, Inner c := by
    cases signed <;> simp [stemText, Inner]
  cases word with
  | plain known => exact each _ (List.mem_map_of_mem known)
  | integer signed bits =>
    rw [String.toList_append]
    refine ⟨by simp [(stems signed).1], fun c inside => ?_⟩
    rcases List.mem_append.1 inside with first | last
    · exact (stems signed).2 c first
    · exact innerFigure (figures bits c last)

theorem plainNoInteger {w : String} (known : w ∈ plainWords.map Prod.fst) (signed : Bool) (bits : Int) :
    w ≠ stemText signed ++ toString bits := by
  have heads : ∀ w ∈ plainWords.map Prod.fst, w.toList.head? ≠ some 'i' ∧ w.toList.head? ≠ some 'u' := by decide
  rintro rfl
  have first := heads _ known
  cases signed <;> simp [stemText, String.toList_append] at first

theorem Word.unique {t u : Ty} {w : String} (one : Word t w) (other : Word u w) : t.bare = u.bare := by
  have distinct : (plainWords.map Prod.fst).Nodup := by decide
  generalize same : w = w' at other
  cases one with
  | plain known =>
    cases other with
    | plain known' => exact congrArg Prod.snd (List.inj_on_of_nodup_map distinct known known' same)
    | integer signed bits => exact absurd same (plainNoInteger (List.mem_map_of_mem known) signed bits)
  | integer signed bits =>
    cases other with
    | plain known => exact absurd same.symm (plainNoInteger (List.mem_map_of_mem known) signed bits)
    | integer signed' bits' =>
      have stems : signed = signed' := by
        have first := congrArg (fun w => w.toList.head?) same
        cases signed <;> cases signed' <;> simp [stemText, String.toList_append] at first ⊢
      subst stems
      rw [numberInj ((String.append_right_inj _).1 same)]

def Spelt (t : Ty) (a : String) : Prop := t.Worded ∧ t.canonical = some a

def joined (texts : List String) : List Char := (String.intercalate "," texts).toList

theorem speltAll {types : List Ty} {texts : List String} (worded : WordedAll types)
    (written : canonicals types = some texts) : List.Forall₂ Spelt types texts := by
  induction types generalizing texts with
  | nil =>
    cases written
    exact .nil
  | cons t rest ih =>
    simp only [canonicals, bind, Option.bind_eq_some_iff] at written
    obtain ⟨a, first, others, last, same⟩ := written
    cases same
    exact .cons ⟨worded.1, first⟩ (ih worded.2 last)

inductive Listed : Ty → List Char → List Ty → Prop
  | mapping (key value : Ty) : Listed (.mapping key value) ['m', 'a', 'p'] [key, value]
  | group {t : Ty} {types : List Ty} (parts : t.parts? = some types) : Listed t [] types

inductive Form : Ty → List Char → Prop
  | word {t : Ty} {w : String} (own : Word t w) : Form t w.toList
  | array {element : Ty} {a : String} (inner : Spelt element a) : Form (.array element) (a.toList ++ ['[', ']'])
  | listed {t : Ty} {head : List Char} {types : List Ty} {texts : List String} (own : Listed t head types)
      (each : List.Forall₂ Spelt types texts) : Form t (head ++ '(' :: joined texts ++ [')'])

theorem Spelt.form {t : Ty} {a : String} (spelt : Spelt t a) : Form t a.toList := by
  obtain ⟨worded, written⟩ := spelt
  cases t with
  | integer signed bits =>
    cases signed <;> cases written <;> exact .word (.integer _ bits)
  | bool | bytes | cell | address =>
    cases written
    exact .word (.plain (by simp [bare, plainWords]))
  | other name =>
    cases written
    simp only [Worded, opaqueNames, List.mem_cons, List.not_mem_nil, or_false] at worded
    exact .word (.plain (by rcases worded with rfl | rfl | rfl <;> simp [bare, plainWords]))
  | named => cases written
  | array element =>
    simp only [canonical, bind, Option.bind_eq_some_iff] at written
    obtain ⟨a, inner, same⟩ := written
    cases same
    rw [String.toList_append]
    exact .array ⟨worded, inner⟩
  | mapping key value =>
    simp only [canonical, bind, Option.bind_eq_some_iff] at written
    obtain ⟨a, first, b, second, same⟩ := written
    cases same
    have whole := Form.listed (.mapping key value) (.cons ⟨worded.1, first⟩ (.cons ⟨worded.2, second⟩ .nil))
    simpa [joined, String.intercalate_cons_cons, String.toList_append] using whole
  | struct _ _ types | tuple types =>
    simp only [canonical, bind, Option.bind_eq_some_iff] at written
    obtain ⟨texts, listed, same⟩ := written
    cases same
    simp only [String.toList_append]
    exact .listed (.group rfl) (speltAll worded listed)

def closing? : Ty → Option Char
  | .array _ => some ']'
  | .mapping .. | .struct .. | .tuple _ => some ')'
  | _ => none

theorem Word.unclosed {t : Ty} {w : String} (word : Word t w) : t.closing? = none := by
  cases word with
  | plain known => cases t <;> simp [bare, plainWords, closing?] at known ⊢
  | integer => rfl

theorem Listed.closes {t : Ty} {head : List Char} {types : List Ty} (listed : Listed t head types) :
    t.closing? = some ')' := by
  cases listed with
  | mapping => rfl
  | group parts => cases t <;> cases parts <;> rfl

theorem Listed.unique {t : Ty} {head head' : List Char} {types types' : List Ty} (one : Listed t head types)
    (other : Listed t head' types') : head = head' ∧ types = types' := by
  cases one with
  | mapping =>
    cases other with
    | mapping => exact ⟨rfl, rfl⟩
    | group parts => cases parts
  | group parts =>
    cases other with
    | mapping => cases parts
    | group parts' => exact ⟨rfl, Option.some.inj (parts.symm.trans parts')⟩

theorem Form.last {t : Ty} {a : List Char} (form : Form t a) :
    ∃ c, a.getLast? = some c ∧ (t.closing? = some c ∨ t.closing? = none ∧ Inner c) := by
  cases form with
  | word own =>
    obtain ⟨some, each⟩ := own.inner
    exact ⟨_, List.getLast?_eq_some_getLast some, .inr ⟨own.unclosed, each _ (List.getLast_mem some)⟩⟩
  | array _ => exact ⟨']', by simp, .inl rfl⟩
  | listed own _ => exact ⟨')', List.getLast?_concat, .inl own.closes⟩

theorem Form.sameClosing {t u : Ty} {a b x y : List Char} (one : Form t a) (other : Form u b) (same : x ++ a = y ++ b) :
    t.closing? = u.closing? := by
  have outside : ∀ v : Ty, ∀ c, v.closing? = some c → ¬Inner c := by
    intro v c closes
    cases v <;> cases closes <;> decide
  obtain ⟨c, last, kind⟩ := one.last
  obtain ⟨d, last', kind'⟩ := other.last
  have ends := congrArg List.getLast? same
  rw [List.getLast?_append, List.getLast?_append, last, last'] at ends
  cases ends
  rcases kind with closes | ⟨none, inner⟩
  · rcases kind' with closes' | ⟨_, inner⟩
    · rw [closes, closes']
    · exact absurd inner (outside _ _ closes)
  · rcases kind' with closes' | ⟨none', _⟩
    · exact absurd inner (outside _ _ closes')
    · rw [none, none']

def Before (x : List Char) : Prop := x.getLast? = some '(' ∨ x.getLast? = some ','

/- At the end of a text, a type is told by how it is written, up to names, and so is what stands before it. -/
def Agrees (t : Ty) : Prop := ∀ {u : Ty} {a b : String} {x y : List Char}, Spelt t a → Spelt u b → Before x → Before y →
  x ++ a.toList = y ++ b.toList → t.bare = u.bare ∧ x = y

theorem joinedConcat (texts : List String) (a : String) :
    joined (texts ++ [a]) = (if texts = [] then [] else joined texts ++ [',']) ++ a.toList := by
  induction texts with
  | nil => simp [joined]
  | cons b rest ih =>
    cases rest with
    | nil => simp [joined, String.intercalate_cons_cons, String.toList_append]
    | cons c rest =>
      have peeled (others : List String) : joined (b :: c :: others) = b.toList ++ ',' :: joined (c :: others) := by
        simp [joined, String.intercalate_cons_cons, String.toList_append]
      rw [List.cons_append, List.cons_append, peeled, ← List.cons_append, ih, peeled]
      simp

def lead (x : List Char) (texts : List String) : List Char :=
  if texts = [] then x ++ ['('] else x ++ '(' :: joined texts ++ [',']

theorem leadBefore (x : List Char) (texts : List String) : Before (lead x texts) := by
  unfold lead
  split
  · exact .inl List.getLast?_concat
  · exact .inr List.getLast?_concat

theorem leadJoined (x : List Char) (texts : List String) (a : String) :
    x ++ '(' :: joined (texts ++ [a]) = lead x texts ++ a.toList := by
  rw [joinedConcat, lead]
  split <;> simp

theorem leadInj {x y : List Char} {as bs : List String} (same : lead x as = lead y bs) :
    x ++ '(' :: joined as = y ++ '(' :: joined bs := by
  unfold lead at same
  split_ifs at same with none none' none'
  · rw [none, none']
    exact same
  · have ends := congrArg List.getLast? same
    rw [List.getLast?_concat, List.getLast?_concat] at ends
    cases ends
  · have ends := congrArg List.getLast? same
    rw [List.getLast?_concat, List.getLast?_concat] at ends
    cases ends
  · exact List.append_cancel_right same

theorem Spelt.noOpening {x y : List Char} {t : Ty} {a : String} (spelt : Spelt t a) : x ++ ['('] ≠ y ++ a.toList := by
  intro same
  obtain ⟨c, last, kind⟩ := spelt.form.last
  have ends := congrArg List.getLast? same
  rw [List.getLast?_concat, List.getLast?_append, last] at ends
  cases ends
  rcases kind with closes | ⟨-, inner⟩
  · cases t <;> cases closes
  · exact inner (by decide)

theorem backwardAgrees {ts us : List Ty} {as bs : List String} {x y : List Char} (each : ∀ t ∈ ts, t.Agrees)
    (one : List.Forall₂ Spelt ts as) (other : List.Forall₂ Spelt us bs)
    (same : x ++ '(' :: joined as.reverse = y ++ '(' :: joined bs.reverse) :
    ts.map bare = us.map bare ∧ x = y := by
  induction one generalizing us bs with
  | nil =>
    cases other with
    | nil => exact ⟨rfl, List.append_cancel_right same⟩
    | cons last _ =>
      rw [List.reverse_cons, leadJoined] at same
      exact absurd same last.noOpening
  | cons last rest ih =>
    rw [List.forall_mem_cons] at each
    cases other with
    | nil =>
      rw [List.reverse_cons, leadJoined] at same
      exact absurd same.symm last.noOpening
    | cons last' rest' =>
      rw [List.reverse_cons, List.reverse_cons, leadJoined, leadJoined] at same
      obtain ⟨shape, before⟩ := each.1 last last' (leadBefore _ _) (leadBefore _ _) same
      obtain ⟨others, front⟩ := ih each.2 rest' (leadInj before)
      exact ⟨by rw [List.map_cons, List.map_cons, shape, others], front⟩

theorem listAgrees {ts us : List Ty} {as bs : List String} {x y : List Char} (each : ∀ t ∈ ts, t.Agrees)
    (one : List.Forall₂ Spelt ts as) (other : List.Forall₂ Spelt us bs)
    (same : x ++ '(' :: joined as = y ++ '(' :: joined bs) : ts.map bare = us.map bare ∧ x = y := by
  have backward := backwardAgrees (x := x) (y := y) (fun t inside => each t (List.mem_reverse.1 inside))
    (List.forall₂_reverse_iff.2 one) (List.forall₂_reverse_iff.2 other) (by simpa using same)
  simpa using backward

theorem Spelt.word {t : Ty} {a : String} (spelt : Spelt t a) (plain : t.closing? = none) : Word t a := by
  have form := spelt.form
  generalize shape : a.toList = cs at form
  cases form with
  | word own => rwa [String.toList_inj.1 shape]
  | array _ => cases plain
  | listed own _ =>
    rw [own.closes] at plain
    cases plain

theorem Spelt.element {element : Ty} {a : String} (spelt : Spelt (.array element) a) :
    ∃ b, Spelt element b ∧ a.toList = b.toList ++ ['[', ']'] := by
  have form := spelt.form
  generalize shape : a.toList = cs at form
  cases form with
  | word own => cases own.unclosed
  | array inner => exact ⟨_, inner, rfl⟩
  | listed own _ => cases own.closes

theorem Spelt.listed {t : Ty} {a : String} (spelt : Spelt t a) (closes : t.closing? = some ')') :
    ∃ head types texts, Listed t head types ∧ List.Forall₂ Spelt types texts ∧
      a.toList = head ++ '(' :: joined texts ++ [')'] := by
  have form := spelt.form
  generalize shape : a.toList = cs at form
  cases form with
  | word own =>
    rw [own.unclosed] at closes
    cases closes
  | array inner => cases closes
  | listed own each => exact ⟨_, _, _, own, each, rfl⟩

theorem wordAgrees {t : Ty} (plain : t.closing? = none) : t.Agrees := by
  intro u a b x y one other before before' same
  have marked {x : List Char} (before : Before x) : ∀ c ∈ x.getLast?, ¬Inner c := by
    intro c last
    rcases before with ends | ends <;> cases last.symm.trans ends <;> decide
  have word := one.word plain
  have word' := other.word (one.form.sameClosing other.form same ▸ plain)
  obtain ⟨front, texts⟩ := partsAgreeLast same word.inner.2 word'.inner.2 (marked before) (marked before')
  cases String.toList_inj.1 texts
  exact ⟨word.unique word', front⟩

theorem arrayAgrees {element : Ty} (inner : element.Agrees) : (Ty.array element).Agrees := by
  intro u a b x y one other before before' same
  have kinds := one.form.sameClosing other.form same
  obtain ⟨a', one, shape⟩ := one.element
  cases u with
  | array element' =>
    obtain ⟨b', other, shape'⟩ := other.element
    rw [shape, shape', ← List.append_assoc, ← List.append_assoc] at same
    obtain ⟨shapes, front⟩ := inner one other before before' (List.append_cancel_right same)
    exact ⟨by rw [bare, bare, shapes], front⟩
  | integer | bool | mapping | bytes | struct | named | tuple | cell | address | other => cases kinds

theorem listedAgrees {t : Ty} {head : List Char} {types : List Ty} (own : Listed t head types)
    (each : ∀ c ∈ types, c.Agrees) : t.Agrees := by
  intro u a b x y one other before before' same
  have kinds := one.form.sameClosing other.form same
  obtain ⟨_, _, texts, again, parts, shape⟩ := one.listed own.closes
  obtain ⟨rfl, rfl⟩ := own.unique again
  obtain ⟨head', types', texts', own', parts', shape'⟩ := other.listed (kinds ▸ own.closes)
  rw [shape, shape'] at same
  have opened : x ++ head ++ '(' :: joined texts = y ++ head' ++ '(' :: joined texts' :=
    (List.append_left_inj [')']).1 (by simpa using same)
  obtain ⟨shapes, front⟩ := listAgrees each parts parts' opened
  have noWord {x y : List Char} (before : Before x) : x ≠ y ++ ['m', 'a', 'p'] := by
    rintro rfl
    rcases before with ends | ends <;> simp at ends
  cases own with
  | mapping key value =>
    cases own' with
    | mapping key' value' =>
      simp only [List.map_cons, List.map_nil, List.cons.injEq, and_true] at shapes
      exact ⟨by rw [bare, bare, shapes.1, shapes.2], List.append_cancel_right front⟩
    | group _ =>
      rw [List.append_nil] at front
      exact absurd front.symm (noWord before')
  | group parts =>
    rw [List.append_nil] at front
    cases own' with
    | mapping _ _ => exact absurd front (noWord before)
    | group parts' =>
      rw [List.append_nil] at front
      rw [bareGroup parts, bareGroup parts', bareAllMap, bareAllMap, shapes]
      exact ⟨rfl, front⟩

mutual
theorem agrees : (t : Ty) → t.Agrees
  | .array element => arrayAgrees (agrees element)
  | .mapping key value => listedAgrees (.mapping key value)
    (List.forall_mem_cons.2 ⟨agrees key, List.forall_mem_singleton.2 (agrees value)⟩)
  | .struct _ _ types => listedAgrees (.group rfl) (agreesAll types)
  | .tuple types => listedAgrees (.group rfl) (agreesAll types)
  | .integer .. | .bool | .bytes _ | .named _ | .cell | .address | .other _ => wordAgrees rfl

theorem agreesAll : (types : List Ty) → ∀ t ∈ types, t.Agrees
  | [] => List.forall_mem_nil _
  | t :: rest => List.forall_mem_cons.2 ⟨agrees t, agreesAll rest⟩
end

def leafShapes (leaves : Except Abort (List Leaf)) : Except Abort (List (Ty × Int × Int)) :=
  leaves.map fun leaves => leaves.map fun l => (l.type.bare, l.bits, l.refs)

def singleShape (target : Target) (t : Ty) : Except Abort (List (Ty × Int × Int)) :=
  match t.leafSize? target with
  | some (bits, refs) => .ok [(t, bits, refs)]
  | none => .error ⟨t.text, .noWireEncoding⟩

theorem shapesSingle {t : Ty} (single : t.parts? = none) (target : Target) (path : String) :
    leafShapes (t.leaves target path) = singleShape target t.bare := by
  cases t <;> cases single <;> rfl

theorem shapesJoined (x y : Except Abort (List Leaf)) :
    leafShapes (x >>= fun a => y >>= fun b => .ok (a ++ b)) =
      leafShapes x >>= fun a => leafShapes y >>= fun b => .ok (a ++ b) := by
  cases x with
  | error _ => rfl
  | ok a =>
    cases y with
    | error _ => rfl
    | ok b => exact congrArg Except.ok List.map_append

theorem sameShapes (target : Target) :
    (∀ t u : Ty, t.bare = u.bare → ∀ path path',
    leafShapes (t.leaves target path) = leafShapes (u.leaves target path')) ∧
    ∀ types others : List Ty, bareAll types = bareAll others →
      (∀ path path' names names', leafShapes (memberLeaves target path names types) =
        leafShapes (memberLeaves target path' names' others)) ∧
      ∀ names names', leafShapes (listLeaves target names types) = leafShapes (listLeaves target names' others) := by
  apply groupInduction
  · intro t single u same path path'
    have single' : u.parts? = none := by
      cases parts : u.parts? with
      | none => rfl
      | some types =>
        have kind := bareSingle single
        rw [same, bareGroup parts] at kind
        cases kind
    rw [shapesSingle single, shapesSingle single', same]
  · intro t types group ih u same path path'
    rw [bareGroup group] at same
    cases parts : u.parts? with
    | none =>
      have kind := bareSingle parts
      rw [← same] at kind
      cases kind
    | some others =>
      rw [bareGroup parts] at same
      obtain ⟨names, leaves⟩ := Position.leavesGroup group target path
      obtain ⟨names', leaves'⟩ := Position.leavesGroup parts target path'
      rw [leaves, leaves']
      exact (ih others (Ty.tuple.inj same)).1 _ _ _ _
  · intro others same
    cases others with
    | nil => exact ⟨fun _ _ _ _ => rfl, fun _ _ => rfl⟩
    | cons _ _ => cases same
  · intro t rest one ih others same
    cases others with
    | nil => cases same
    | cons u others =>
      rw [bareAll, bareAll] at same
      obtain ⟨first, tail⟩ := List.cons.inj same
      obtain ⟨members, listed⟩ := ih others tail
      refine ⟨fun path path' names names' => ?_, fun names names' => ?_⟩
      · rw [memberLeaves, memberLeaves, shapesJoined, shapesJoined, one u first, members]
      · rw [listLeaves, listLeaves, shapesJoined, shapesJoined, one u first, listed]

structure SameWire (types others : List Ty) : Prop where
  count : types.length = others.length
  shapes : List.Forall₂ (fun t u => t.bare = u.bare) types others
  leaves : ∀ target names names',
    leafShapes (listLeaves target names types) = leafShapes (listLeaves target names' others)

theorem SameWire.ofShapes {types others : List Ty} (same : types.map bare = others.map bare) :
    SameWire types others where
  count := by simpa using congrArg List.length same
  shapes := by
    have related : List.Forall₂ (· = ·) (types.map bare) (others.map bare) := List.forall₂_eq_eq_eq ▸ same
    rwa [List.forall₂_map_left_iff, List.forall₂_map_right_iff] at related
  leaves := fun target => ((sameShapes target).2 types others (by rw [bareAllMap, bareAllMap, same])).2

end Ty

theorem versionAgrees {a b : List Char} {v w : Int}
    (same : a ++ 'v' :: (toString v).toList = b ++ 'v' :: (toString w).toList) :
    a = b ∧ v = w := by
  have letter : ¬Figure 'v' := by simp [Figure]
  have split : a ++ ['v'] ++ (toString v).toList = b ++ ['v'] ++ (toString w).toList := by simpa using same
  obtain ⟨front, numbers⟩ :=
    partsAgreeLast split (figures v) (figures w) (by simpa using letter) (by simpa using letter)
  exact ⟨List.append_cancel_right front, numberInj (String.toList_inj.1 numbers)⟩

theorem signatureSpelt {name s : String} {params returns : List Ty} (worded : ∀ t ∈ params ++ returns, t.Worded)
    (signed : signature? name params returns = some s) : ∃ ps rs, List.Forall₂ Ty.Spelt params ps ∧
      List.Forall₂ Ty.Spelt returns rs ∧
      s.toList = name.toList ++ '(' :: Ty.joined ps ++ [')'] ++ '(' :: Ty.joined rs ++ [')'] := by
  simp only [signature?, typeList?, bind, Option.bind_eq_some_iff, Option.map_eq_some_iff] at signed
  obtain ⟨_, ⟨ps, first, rfl⟩, _, ⟨rs, second, rfl⟩, same⟩ := signed
  cases same
  refine ⟨ps, rs, Ty.speltAll (Ty.wordedAll.2 fun t inside => worded t (List.mem_append_left _ inside)) first,
    Ty.speltAll (Ty.wordedAll.2 fun t inside => worded t (List.mem_append_right _ inside)) second, ?_⟩
  simp [String.toList_append, Ty.joined]

theorem signaturesTell {f g : Function} {s s' : String} {v w : Int}
    (worded : ∀ p ∈ f.params ++ f.returns, p.type.Worded) (worded' : ∀ p ∈ g.params ++ g.returns, p.type.Worded)
    (signed : f.signature? = some s) (signed' : g.signature? = some s')
    (same : s ++ "v" ++ toString v = s' ++ "v" ++ toString w) :
    f.name = g.name ∧ v = w ∧ Ty.SameWire (f.params.map Variable.type) (g.params.map Variable.type) ∧
      Ty.SameWire (f.returns.map Variable.type) (g.returns.map Variable.type) := by
  have texts : s.toList ++ 'v' :: (toString v).toList = s'.toList ++ 'v' :: (toString w).toList := by
    simpa [String.toList_append] using congrArg String.toList same
  obtain ⟨signatures, versions⟩ := versionAgrees texts
  obtain ⟨ps, rs, params, returns, shape⟩ := signatureSpelt (by simpa [← List.map_append] using worded) signed
  obtain ⟨ps', rs', params', returns', shape'⟩ := signatureSpelt (by simpa [← List.map_append] using worded') signed'
  rw [shape, shape'] at signatures
  obtain ⟨ends, front⟩ := Ty.listAgrees (fun t _ => t.agrees) returns returns' (List.append_cancel_right signatures)
  obtain ⟨starts, names⟩ := Ty.listAgrees (fun t _ => t.agrees) params params' (List.append_cancel_right front)
  exact ⟨String.toList_inj.1 names, versions, .ofShapes starts, .ofShapes ends⟩

def priceTypes : List Ty := [.uint 8, .array (.mapping (.uint 8) (.other "TvmSlice"))]

def orderLookup (name : Ty.Bytes) : Option Ty :=
  if name = Text.utf8 "Order" then some (.struct "Order" ["count", "prices"] priceTypes) else none

def structOrder : Function :=
  ⟨"map(v2", .function, [⟨"order", .struct "Order" ["count", "prices"] priceTypes, default⟩],
    [⟨"note", .bytes "string", default⟩], .publ, .view, false, 0, [], default⟩

def tupleOrder : Function :=
  { structOrder with params := [⟨"", .tuple priceTypes, default⟩], returns := [⟨"", .bytes "bytes", default⟩] }

theorem ordersTold :
    (∀ p ∈ structOrder.params ++ structOrder.returns, p.type.Worded) ∧
    (∀ p ∈ tupleOrder.params ++ tupleOrder.returns, p.type.Worded) ∧
    structOrder.signature? = some "map(v2((uint8,map(uint8,TvmSlice)[]))(bytes)" ∧
    tupleOrder.signature? = some "map(v2((uint8,map(uint8,TvmSlice)[]))(bytes)" ∧
    structOrder.name = tupleOrder.name ∧
    Ty.SameWire [.struct "Order" ["count", "prices"] priceTypes] [.tuple priceTypes] ∧
    Ty.SameWire [.bytes "string"] [.bytes "bytes"] := by
  have declared : ∀ n t, (∀ b ∈ n, Ty.isNameByte b = true) → orderLookup n = some t → t.Worded := by
    intro n t _ found
    unfold orderLookup at found
    split_ifs at found
    cases found
    simp [priceTypes, Ty.Worded, Ty.WordedAll, Ty.opaqueNames]
  have read (source : String) {t : Ty} (ok : Ty.parse orderLookup source = .ok t) : t.Worded :=
    Ty.wordedKept.parseBytes declared ok
  have worded : ∀ p ∈ structOrder.params ++ structOrder.returns, p.type.Worded :=
    List.forall_mem_cons.2 ⟨read "Order" rfl, List.forall_mem_singleton.2 (read "string" rfl)⟩
  have worded' : ∀ p ∈ tupleOrder.params ++ tupleOrder.returns, p.type.Worded :=
    List.forall_mem_cons.2 ⟨read "tuple(uint8,mapping(uint8 => TvmSlice)[])" rfl,
      List.forall_mem_singleton.2 (read "bytes" rfl)⟩
  have signed : structOrder.signature? = some "map(v2((uint8,map(uint8,TvmSlice)[]))(bytes)" := by decide +kernel
  have signed' : tupleOrder.signature? = some "map(v2((uint8,map(uint8,TvmSlice)[]))(bytes)" := by decide +kernel
  obtain ⟨names, -, params, returns⟩ := signaturesTell (v := 2) (w := 2) worded worded' signed signed' rfl
  exact ⟨worded, worded', signed, signed', names, params, returns⟩

end CellChain
