import Mathlib
import CellChain.Proofs.Emission
import CellChain.Proofs.TypeGrammar
/-! The reader of type expressions accepts exactly the grammar. What it reads is spelt by the tokens of a tree, and it
reads every tree to the end. Each type takes at least one byte, so the bounds of the recursion and of the loops are
never reached. -/
namespace CellChain.Ty

open Text (utf8)

variable {ν : Type} {total : Nat} {lookup : Bytes → Option (Ty ν)}

structure Reads (s rest : Bytes) (tokens : List Token) : Prop where
  spells : ∀ more, Spells rest more → Spells s (tokens ++ more)
  length : tokens.length + rest.length ≤ s.length

namespace Reads

theorem refl (s : Bytes) : Reads s s [] := ⟨fun _ spells => spells, by simp⟩

theorem trans {s middle rest : Bytes} {first second : List Token} (one : Reads s middle first)
    (two : Reads middle rest second) : Reads s rest (first ++ second) := by
  constructor
  · intro more spells
    rw [List.append_assoc]
    exact one.spells _ (two.spells more spells)
  · have before := one.length
    have after := two.length
    rw [List.length_append]
    omega

theorem ofSkipped {s rest : Bytes} (same : skipBlanks s = rest) : Reads s rest [] := by
  subst same
  refine ⟨fun _ spells => .ofSkipped spells, ?_⟩
  rw [List.length_nil, Nat.zero_add]
  exact List.length_dropWhile_le _ s

theorem mark {text : String} (known : text ∈ marks) (rest : Bytes) : Reads (utf8 text ++ rest) rest [.mark text] := by
  refine ⟨fun _ spells => .mark known spells, ?_⟩
  obtain ⟨b, tail, head, -⟩ := markHead known
  rw [head, List.length_append, List.length_singleton, List.length_cons]
  omega

theorem name {letters rest : Bytes} (some : letters ≠ []) (each : ∀ b ∈ letters, Letter b)
    (longest : ∀ b ∈ rest.head?, ¬Letter b) : Reads (letters ++ rest) rest [.name letters] := by
  refine ⟨fun _ spells => .name some each longest spells, ?_⟩
  have first := List.length_pos_iff.2 some
  rw [List.length_append, List.length_singleton]
  omega

end Reads

theorem acceptReads {text : String} (known : text ∈ marks) {s rest : Bytes} (taken : accept? text s = some rest) :
    Reads s rest [.mark text] := (Reads.ofSkipped (acceptIff.1 taken)).trans (.mark known rest)

theorem expectIff {text : String} {s rest : Bytes} : expect total text s = .ok rest ↔ accept? text s = some rest := by
  unfold expect
  cases accept? text s with
  | none => exact iff_of_false nofun nofun
  | some after => simp

theorem expectReads {text : String} (known : text ∈ marks) {s rest : Bytes} (taken : expect total text s = .ok rest) :
    Reads s rest [.mark text] := acceptReads known (expectIff.1 taken)

theorem nameReads {letters s rest : Bytes} (taken : takeName s = (letters, rest)) (some : letters ≠ []) :
    Reads s rest [.name letters] := by
  obtain ⟨shape, each, longest⟩ := takeNameParts taken
  exact (Reads.ofSkipped shape).trans (.name some each longest)

theorem structNamedIff {name s rest : Bytes} {t : Ty ν} :
    structNamed lookup name s = .ok (t, rest) ↔ lookup name = some t ∧ rest = s := by
  unfold structNamed
  cases lookup name with
  | none => exact iff_of_false nofun nofun
  | some found => simp [eq_comm]

theorem arraySuffixReads {fuel : Nat} {t u : Ty ν} {s rest : Bytes} (ok : arraySuffix total fuel t s = .ok (u, rest)) :
    ∃ n, u = Ty.array^[n] t ∧ Reads s rest (brackets n) := by
  induction fuel generalizing t s with
  | zero =>
    cases ok
    exact ⟨0, rfl, .refl _⟩
  | succ fuel ih =>
    unfold arraySuffix suffixes at ok
    split at ok
    · cases ok
      exact ⟨0, rfl, .refl _⟩
    · rename_i inside opened
      obtain ⟨after, closed, ok⟩ := okOfBind ok
      obtain ⟨n, rfl, reads⟩ := ih ok
      exact ⟨n + 1, rfl, (acceptReads (by decide) opened).trans ((expectReads (by decide) closed).trans reads)⟩

def Faithful (lookup : Bytes → Option (Ty ν)) (recur : Bytes → Except ParseError (Ty ν × Bytes)) : Prop :=
  ∀ s t rest, recur s = .ok (t, rest) → ∃ e : Expr, e.Denotes lookup t ∧ Reads s rest e.tokens

section
variable {recur : Bytes → Except ParseError (Ty ν × Bytes)} (sound : Faithful lookup recur)
include sound

theorem mappingReads {s rest : Bytes} {t : Ty ν} (ok : mappingBody total recur s = .ok (t, rest)) :
    ∃ key value : Expr, (Base.mapping key value).Denotes lookup t ∧
      Reads s rest (.mark "(" :: (key.tokens ++ .mark "=>" :: (value.tokens ++ [.mark ")"]))) := by
  obtain ⟨_, opened, ok⟩ := okOfBind ok
  obtain ⟨⟨k, _⟩, first, ok⟩ := okOfBind ok
  obtain ⟨_, arrow, ok⟩ := okOfBind ok
  obtain ⟨⟨v, _⟩, second, ok⟩ := okOfBind ok
  obtain ⟨_, closed, ok⟩ := okOfBind ok
  cases ok
  obtain ⟨key, one, reads⟩ := sound _ _ _ first
  obtain ⟨value, two, reads'⟩ := sound _ _ _ second
  refine ⟨key, value, .mapping one two, (expectReads (by decide) opened).trans (reads.trans ?_)⟩
  exact (expectReads (by decide) arrow).trans (reads'.trans (expectReads (by decide) closed))

theorem componentsReads {fuel : Nat} {s rest : Bytes} {types : List (Ty ν)}
    (ok : components total recur fuel s = .ok (types, rest)) :
    ∃ e parts, List.Forall₂ (Expr.Denotes lookup) (e :: parts) types ∧
      Reads s rest (listTokens (e :: parts) ++ [.mark ")"]) := by
  induction fuel generalizing s types with
  | zero => cases ok
  | succ fuel ih =>
    obtain ⟨⟨t, after⟩, read, ok⟩ := okOfBind ok
    obtain ⟨e, denotes, reads⟩ := sound _ _ _ read
    simp only at ok
    split at ok
    · rename_i closed
      cases ok
      refine ⟨e, [], .cons denotes .nil, ?_⟩
      rw [listTokens, moreTokens, List.append_nil]
      exact reads.trans (acceptReads (by decide) closed)
    · obtain ⟨_, comma, ok⟩ := okOfBind ok
      obtain ⟨⟨others, _⟩, listed, ok⟩ := okOfBind ok
      cases ok
      obtain ⟨next, parts, each, reads'⟩ := ih listed
      refine ⟨e, next :: parts, .cons denotes each, ?_⟩
      have behind := reads.trans ((expectReads (by decide) comma).trans reads')
      rwa [listTokens, moreTokens, List.append_assoc]

theorem tupleReads {s rest : Bytes} {t : Ty ν} (ok : tupleBody total recur s = .ok (t, rest)) :
    ∃ parts, (Base.tuple parts).Denotes lookup t ∧ Reads s rest (.mark "(" :: (listTokens parts ++ [.mark ")"])) := by
  obtain ⟨_, opened, ok⟩ := okOfBind ok
  have first := expectReads (by decide) opened
  simp only at ok
  split at ok
  · rename_i closed
    cases ok
    exact ⟨[], .tuple .nil, first.trans (acceptReads (by decide) closed)⟩
  · obtain ⟨⟨types, _⟩, listed, ok⟩ := okOfBind ok
    cases ok
    obtain ⟨e, parts, each, reads⟩ := componentsReads sound listed
    exact ⟨e :: parts, .tuple each, first.trans reads⟩

theorem baseReads {s rest : Bytes} {t : Ty ν} (ok : base total lookup recur s = .ok (t, rest)) :
    ∃ b : Base, b.Denotes lookup t ∧ Reads s rest b.tokens := by
  unfold base at ok
  cases taken : takeName s with
  | mk name after =>
    rw [taken] at ok
    simp only at ok
    split_ifs at ok with empty mapping tuple struct
    · obtain ⟨key, value, denotes, reads⟩ := mappingReads sound ok
      have whole := (nameReads taken empty).trans reads
      rw [mapping] at whole
      exact ⟨.mapping key value, denotes, by simpa [Base.tokens] using whole⟩
    · obtain ⟨parts, denotes, reads⟩ := tupleReads sound ok
      have whole := (nameReads taken empty).trans reads
      rw [tuple] at whole
      exact ⟨.tuple parts, denotes, by simpa [Base.tokens] using whole⟩
    · have keyword := nameReads taken empty
      rw [struct] at keyword
      cases taken' : takeName after with
      | mk own behind =>
        rw [taken'] at ok
        obtain ⟨found, rfl⟩ := structNamedIff.1 ok
        refine ⟨.struct own, .struct found, ?_⟩
        by_cases missing : own = []
        · subst missing
          exact keyword.trans (.ofSkipped (takeNameParts taken').1)
        · rw [Base.tokens, if_neg missing]
          exact keyword.trans (nameReads taken' missing)
    · have free : ∀ k ∈ keywords, name ≠ utf8 k := by simp [keywords, mapping, tuple, struct]
      obtain ⟨rfl, a, rfl, denotes⟩ := Atom.ofRead (takeNameParts taken).2.1 free ok
      exact ⟨.atom a, .atom denotes, nameReads taken empty⟩

end

theorem parseTypeReads (fuel : Nat) : Faithful lookup (parseType total lookup fuel) := by
  induction fuel with
  | zero => exact nofun
  | succ fuel ih =>
    intro s t rest ok
    obtain ⟨⟨first, after⟩, read, ok⟩ := okOfBind ok
    obtain ⟨b, denotes, reads⟩ := baseReads ih read
    obtain ⟨n, rfl, reads'⟩ := arraySuffixReads ok
    exact ⟨.of b n, .of denotes, reads.trans reads'⟩

theorem finishIff {read : Ty ν × Bytes} {t : Ty ν} :
    finish total read = .ok t ↔ read.1 = t ∧ skipBlanks read.2 = [] := by
  unfold finish
  simp only
  split_ifs with ended
  · simp [ended]
  · simp [ended]

theorem parsedDerives {s : Bytes} {t : Ty ν} (ok : parseBytes lookup s = .ok t) : ∃ e, Derives lookup s e t := by
  obtain ⟨⟨read, rest⟩, parsed, ok⟩ := okOfBind ok
  obtain ⟨rfl, ended⟩ := finishIff.1 ok
  obtain ⟨e, denotes, reads⟩ := parseTypeReads _ _ _ _ parsed
  have last : Spells rest [] := .ofSkipped (ended ▸ .nil)
  exact ⟨e, List.append_nil e.tokens ▸ reads.spells [] last, denotes⟩

variable (total)

theorem Spells.expected {text : String} {s : Bytes} {tokens : List Token} (spells : Spells s (.mark text :: tokens)) :
    ∃ rest, expect total text s = .ok rest ∧ Spells rest tokens := by
  obtain ⟨-, rest, taken, more⟩ := spells.takesMark
  exact ⟨rest, expectIff.2 taken, more⟩

theorem arraySuffixTakes {n fuel : Nat} (enough : n ≤ fuel) (t : Ty ν) {s : Bytes} {tokens : List Token}
    (follows : Follows tokens) (spells : Spells s (brackets n ++ tokens)) :
    ∃ rest, arraySuffix total fuel t s = .ok (Ty.array^[n] t, rest) ∧ Spells rest tokens := by
  induction n generalizing fuel t s with
  | zero =>
    refine ⟨s, ?_, spells⟩
    cases fuel with
    | zero => rfl
    | succ fuel =>
      unfold arraySuffix suffixes
      rw [spells.noMark (by decide) follows.2]
      rfl
  | succ n ih =>
    cases fuel with
    | zero => omega
    | succ fuel =>
      obtain ⟨-, inside, opened, spells⟩ := spells.takesMark
      obtain ⟨after, closed, spells⟩ := spells.expected total
      obtain ⟨rest, read, spells⟩ := ih (Nat.le_of_succ_le_succ enough) (.array t) spells
      refine ⟨rest, ?_, spells⟩
      unfold arraySuffix suffixes
      rw [opened]
      simp only
      rw [closed]
      exact read

theorem bracketsLength (n : Nat) : (brackets n).length = 2 * n := by
  induction n with
  | zero => rfl
  | succ n ih =>
    rw [brackets, List.length_cons, List.length_cons, ih]
    omega

def Covers (lookup : Bytes → Option (Ty ν)) (recur : Bytes → Except ParseError (Ty ν × Bytes)) (bound : Nat) : Prop :=
  ∀ (e : Expr) t s tokens, e.Denotes lookup t → e.tokens.length < bound → Follows tokens →
    Spells s (e.tokens ++ tokens) →
    ∃ rest, recur s = .ok (t, rest) ∧ Spells rest tokens

theorem moreLength (parts : List Expr) : parts.length ≤ (moreTokens parts).length := by
  induction parts with
  | nil => exact Nat.zero_le _
  | cons e parts ih =>
    rw [moreTokens, List.length_cons, List.length_cons, List.length_append]
    omega

section
variable {recur : Bytes → Except ParseError (Ty ν × Bytes)} {bound : Nat} (covers : Covers lookup recur bound)
include covers

theorem mappingTakes {key value : Expr} {k v : Ty ν} (first : key.Denotes lookup k) (second : value.Denotes lookup v)
    {s : Bytes} {tokens : List Token} (small : key.tokens.length < bound ∧ value.tokens.length < bound)
    (spells : Spells s (.mark "(" :: (key.tokens ++ .mark "=>" :: (value.tokens ++ .mark ")" :: tokens)))) :
    ∃ rest, mappingBody total recur s = .ok (.mapping k v, rest) ∧ Spells rest tokens := by
  obtain ⟨_, opened, spells⟩ := spells.expected total
  obtain ⟨_, one, spells⟩ := covers _ _ _ _ first small.1 (followsMark (by decide) _) spells
  obtain ⟨_, arrow, spells⟩ := spells.expected total
  obtain ⟨_, two, spells⟩ := covers _ _ _ _ second small.2 (followsMark (by decide) _) spells
  obtain ⟨rest, closed, spells⟩ := spells.expected total
  refine ⟨rest, ?_, spells⟩
  unfold mappingBody
  simp only [opened, one, arrow, two, closed, bind, Except.bind]

theorem componentsTakes {fuel : Nat} {e : Expr} {parts : List Expr} {types : List (Ty ν)}
    (each : List.Forall₂ (Expr.Denotes lookup) (e :: parts) types) (small : (listTokens (e :: parts)).length < bound)
    (enough : parts.length < fuel) {s : Bytes} {tokens : List Token}
    (spells : Spells s (listTokens (e :: parts) ++ .mark ")" :: tokens)) :
    ∃ rest, components total recur fuel s = .ok (types, rest) ∧ Spells rest tokens := by
  induction parts generalizing e fuel types s with
  | nil =>
    cases fuel with
    | zero => omega
    | succ fuel =>
      obtain _ | ⟨denotes, ⟨⟩⟩ := each
      rw [listTokens, moreTokens, List.append_nil] at small spells
      obtain ⟨_, read, spells⟩ := covers _ _ _ _ denotes small (followsMark (by decide) _) spells
      obtain ⟨-, rest, closed, spells⟩ := spells.takesMark
      refine ⟨rest, ?_, spells⟩
      unfold components listed
      simp only [read, closed, bind, Except.bind]
  | cons next parts ih =>
    cases fuel with
    | zero => omega
    | succ fuel =>
      obtain _ | ⟨denotes, each⟩ := each
      have split : listTokens (e :: next :: parts) = e.tokens ++ .mark "," :: listTokens (next :: parts) := by
        simp [listTokens, moreTokens]
      rw [split, List.length_append, List.length_cons] at small
      rw [split, List.append_assoc, List.cons_append] at spells
      obtain ⟨after, read, spells⟩ := covers _ _ _ _ denotes (by omega) (followsMark (by decide) _) spells
      have going : accept? ")" after = none := spells.noMark (by decide) (by simp)
      obtain ⟨_, comma, spells⟩ := spells.expected total
      obtain ⟨rest, others, spells⟩ := ih each (by omega) (Nat.lt_of_succ_lt_succ enough) spells
      refine ⟨rest, ?_, spells⟩
      unfold components listed
      simp only [read, going, comma, others, bind, Except.bind]

theorem tupleTakes {parts : List Expr} {types : List (Ty ν)} (each : List.Forall₂ (Expr.Denotes lookup) parts types)
    (small : (listTokens parts).length < bound) {s : Bytes} {tokens : List Token}
    (spells : Spells s (.mark "(" :: (listTokens parts ++ .mark ")" :: tokens))) :
    ∃ rest, tupleBody total recur s = .ok (.tuple types, rest) ∧ Spells rest tokens := by
  obtain ⟨inside, opened, spells⟩ := spells.expected total
  unfold tupleBody
  cases parts with
  | nil =>
    cases each
    obtain ⟨-, rest, closed, spells⟩ := spells.takesMark
    exact ⟨rest, by simp only [opened, closed, bind, Except.bind], spells⟩
  | cons e parts =>
    obtain ⟨letters, more, first⟩ := e.firstName
    have going : accept? ")" inside = none := by
      refine spells.noMark (by decide) ?_
      rw [listTokens, first]
      simp
    have enough : parts.length < inside.length + 1 := by
      have count := spells.length
      have parted := moreLength parts
      rw [listTokens, List.length_append, List.length_append] at count
      omega
    obtain ⟨rest, read, spells⟩ := componentsTakes total covers each small enough spells
    exact ⟨rest, by simp only [opened, going, read, bind, Except.bind], spells⟩

theorem baseTakes {b : Base} {t : Ty ν} (denotes : b.Denotes lookup t) (small : b.tokens.length ≤ bound) {s : Bytes}
    {tokens : List Token} (absent : NoName tokens) (spells : Spells s (b.tokens ++ tokens)) :
    ∃ rest, base total lookup recur s = .ok (t, rest) ∧ Spells rest tokens := by
  unfold base
  cases denotes with
  | @atom a _ own =>
    obtain ⟨some, each, rest, taken, spells⟩ := spells.takesName
    have free := own.free
    simp only [keywords, List.forall_mem_cons] at free
    refine ⟨rest, ?_, spells⟩
    simp only [taken, if_neg some, if_neg free.1, if_neg free.2.1, if_neg free.2.2.1]
    exact own.read each
  | @struct name _ found =>
    obtain ⟨some, -, after, taken, spells⟩ := spells.takesName
    have other : ¬utf8 "struct" = utf8 "mapping" ∧ ¬utf8 "struct" = utf8 "tuple" := by decide +kernel
    have named : ∃ rest, takeName after = (name, rest) ∧ Spells rest tokens := by
      by_cases missing : name = []
      · rw [if_pos missing] at spells
        rw [missing]
        exact spells.noName absent
      · rw [if_neg missing] at spells
        exact spells.takesName.2.2
    obtain ⟨rest, taken', spells⟩ := named
    refine ⟨rest, ?_, spells⟩
    simp only [taken, if_neg some, if_neg other.1, if_neg other.2, taken', if_true]
    exact structNamedIff.2 ⟨found, rfl⟩
  | @mapping key value k v first second =>
    simp only [Base.tokens, List.cons_append, List.nil_append, List.append_assoc, List.length_cons,
      List.length_append] at small spells
    obtain ⟨some, -, after, taken, spells⟩ := spells.takesName
    obtain ⟨rest, read, spells⟩ := mappingTakes total covers first second ⟨by omega, by omega⟩ spells
    refine ⟨rest, ?_, spells⟩
    simpa only [taken, if_neg some, if_true] using read
  | @tuple parts types each =>
    simp only [Base.tokens, List.cons_append, List.nil_append, List.append_assoc, List.length_cons,
      List.length_append] at small spells
    obtain ⟨some, -, after, taken, spells⟩ := spells.takesName
    have other : ¬utf8 "tuple" = utf8 "mapping" := by decide +kernel
    obtain ⟨rest, read, spells⟩ := tupleTakes total covers each (by omega) spells
    refine ⟨rest, ?_, spells⟩
    simpa only [taken, if_neg some, if_neg other, if_true] using read

end

theorem parseTypeCovers (fuel : Nat) : Covers lookup (parseType total lookup fuel) fuel := by
  -- The induction is on the bound: the trees inside a base have fewer tokens than the base.
  induction fuel with
  | zero => exact fun _ _ _ _ _ small => absurd small (Nat.not_lt_zero _)
  | succ fuel ih =>
    intro e t s tokens denotes small follows spells
    obtain ⟨b, n⟩ := e
    cases denotes with
    | @of _ _ t inner =>
    simp only [Expr.tokens, List.length_append, List.append_assoc] at small spells
    obtain ⟨after, read, spells⟩ := baseTakes total ih inner (by omega) (follows.brackets n) spells
    have enough : n ≤ after.length := by
      have count := spells.length
      rw [List.length_append, bracketsLength] at count
      omega
    obtain ⟨rest, suffixed, spells⟩ := arraySuffixTakes total enough t follows spells
    refine ⟨rest, ?_, spells⟩
    unfold parseType
    simp only [read, suffixed, bind, Except.bind]

theorem derivedParses {s : Bytes} {e : Expr} {t : Ty ν} (derives : Derives lookup s e t) :
    parseBytes lookup s = .ok t := by
  obtain ⟨spells, denotes⟩ := derives
  have small : e.tokens.length < s.length + 1 := Nat.lt_succ_of_le spells.length
  rw [← List.append_nil e.tokens] at spells
  obtain ⟨rest, read, spells⟩ := parseTypeCovers s.length (s.length + 1) e t s [] denotes small followsNil spells
  unfold parseBytes
  rw [read]
  exact finishIff.2 ⟨rfl, spells.ended⟩

/- The bounds are never reached: a reader gives the same as any that agrees with it on shorter inputs. -/

theorem bindAgree {ε α β : Type} {x : Except ε α} {f g : α → Except ε β} (agree : ∀ a, x = .ok a → f a = g a) :
    (x >>= f) = (x >>= g) := by
  cases x with
  | error fault => rfl
  | ok a => exact agree a rfl

theorem Faithful.shorter {recur : Bytes → Except ParseError (Ty ν × Bytes)} (sound : Faithful lookup recur)
    {s rest : Bytes} {t : Ty ν} (ok : recur s = .ok (t, rest)) : rest.length < s.length := by
  obtain ⟨e, -, reads⟩ := sound _ _ _ ok
  obtain ⟨letters, more, first⟩ := e.firstName
  have length := reads.length
  rw [first, List.length_cons] at length
  omega

theorem acceptShorter {text : String} (known : text ∈ marks) {s rest : Bytes} (taken : accept? text s = some rest) :
    rest.length < s.length := by
  have length := (acceptReads known taken).length
  rw [List.length_singleton] at length
  omega

theorem expectShorter {text : String} (known : text ∈ marks) {s rest : Bytes} (taken : expect total text s = .ok rest) :
    rest.length < s.length := acceptShorter known (expectIff.1 taken)

theorem suffixesAgree {more more' : Ty ν → Bytes → Except ParseError (Ty ν × Bytes)} (t : Ty ν) {s : Bytes}
    (agree : ∀ u r, r.length < s.length → more u r = more' u r) :
    suffixes total more t s = suffixes total more' t s := by
  unfold suffixes
  cases opened : accept? "[" s with
  | none => rfl
  | some inside =>
    refine bindAgree fun after closed => agree _ _ ?_
    exact (expectShorter total (by decide) closed).trans (acceptShorter (by decide) opened)

theorem arraySuffixAgree {fuel fuel' : Nat} (t : Ty ν) {s : Bytes} (enough : s.length ≤ fuel)
    (enough' : s.length ≤ fuel') :
    arraySuffix total fuel t s = arraySuffix total fuel' t s := by
  induction fuel generalizing fuel' t s with
  | zero =>
    obtain rfl := List.eq_nil_of_length_eq_zero (Nat.le_zero.1 enough)
    cases fuel' with
    | zero => rfl
    | succ fuel' => rfl
  | succ fuel ih =>
    cases fuel' with
    | zero =>
      obtain rfl := List.eq_nil_of_length_eq_zero (Nat.le_zero.1 enough')
      rfl
    | succ fuel' => exact suffixesAgree total t fun u r shorter => ih u (by omega) (by omega)

section
variable {recur recur' : Bytes → Except ParseError (Ty ν × Bytes)} (sound : Faithful lookup recur) {bound : Nat}
  (agree : ∀ s, s.length < bound → recur s = recur' s)
include sound agree

theorem mappingAgree {s : Bytes} (small : s.length ≤ bound) :
    mappingBody total recur s = mappingBody total recur' s := by
  refine bindAgree fun inside opened => ?_
  have first := expectShorter total (by decide) opened
  rw [← agree inside (by omega)]
  refine bindAgree fun key read => ?_
  have second := sound.shorter read
  refine bindAgree fun after arrow => ?_
  have third := expectShorter total (by decide) arrow
  rw [← agree after (by omega)]

theorem listedAgree {more more' : Bytes → Except ParseError (List (Ty ν) × Bytes)} {s : Bytes}
    (small : s.length < bound)
    (rest : ∀ r, r.length < s.length → more r = more' r) :
    listed total recur more s = listed total recur' more' s := by
  unfold listed
  rw [← agree s small]
  refine bindAgree fun ⟨first, behind⟩ read => ?_
  have shorter := sound.shorter read
  simp only
  cases accept? ")" behind with
  | some after => rfl
  | none =>
    refine bindAgree fun after comma => ?_
    have left := expectShorter total (by decide) comma
    rw [rest after (by omega)]

theorem componentsAgree {fuel fuel' : Nat} {s : Bytes} (small : s.length < bound) (enough : s.length < fuel)
    (enough' : s.length < fuel') : components total recur fuel s = components total recur' fuel' s := by
  induction fuel generalizing fuel' s with
  | zero => omega
  | succ fuel ih =>
    cases fuel' with
    | zero => omega
    | succ fuel' =>
      exact listedAgree total sound agree small fun r shorter => ih (by omega) (by omega) (by omega)

theorem tupleAgree {s : Bytes} (small : s.length ≤ bound) : tupleBody total recur s = tupleBody total recur' s := by
  refine bindAgree fun inside opened => ?_
  have shorter := expectShorter total (by decide) opened
  rw [componentsAgree total sound agree (by omega) (Nat.lt_succ_self _) (Nat.lt_succ_self _)]

theorem baseAgree {s : Bytes} (small : s.length ≤ bound) : base total lookup recur s = base total lookup recur' s := by
  unfold base
  cases taken : takeName s with
  | mk name rest =>
    have length := (Reads.ofSkipped (takeNameParts taken).1).length
    rw [List.length_append] at length
    simp only
    rw [mappingAgree total sound agree (by omega), tupleAgree total sound agree (by omega)]

end

theorem parseTypeAgree {fuel fuel' : Nat} {s : Bytes} (enough : s.length < fuel) (enough' : s.length < fuel') :
    parseType total lookup fuel s = parseType total lookup fuel' s := by
  induction fuel generalizing fuel' s with
  | zero => omega
  | succ fuel ih =>
    cases fuel' with
    | zero => omega
    | succ fuel' =>
      have agree : ∀ r : Bytes, r.length < s.length → parseType total lookup fuel r = parseType total lookup fuel' r :=
        fun r shorter => ih (by omega) (by omega)
      unfold parseType
      rw [baseAgree total (parseTypeReads fuel) agree (Nat.le_refl _)]

structure Descends (total : Nat) (lookup : Bytes → Option (Ty ν)) (read : Bytes → Except ParseError (Ty ν × Bytes)) :
    Prop where
  type : ∀ s, read s = base total lookup read s >>= fun (t, rest) => arraySuffix total rest.length t rest
  suffix : ∀ (t : Ty ν) (s : Bytes),
    arraySuffix total s.length t s = suffixes total (fun u r => arraySuffix total r.length u r) t s
  list : ∀ s, components total read (s.length + 1) s =
    listed total read (fun r => components total read (r.length + 1) r) s

def unbounded (total : Nat) (lookup : Bytes → Option (Ty ν)) (s : Bytes) : Except ParseError (Ty ν × Bytes) :=
  parseType total lookup (s.length + 1) s

theorem unboundedReads : Faithful lookup (unbounded total lookup) := fun s t rest ok => parseTypeReads _ s t rest ok

theorem unboundedDescends (lookup : Bytes → Option (Ty ν)) : Descends total lookup (unbounded total lookup) where
  type s := by
    have agree : ∀ r : Bytes, r.length < s.length → parseType total lookup s.length r = unbounded total lookup r :=
      fun r shorter => parseTypeAgree total shorter (Nat.lt_succ_self _)
    rw [unbounded, parseType, baseAgree total (parseTypeReads _) agree (Nat.le_refl _)]
  suffix t s := by
    rw [arraySuffixAgree total t (Nat.le_refl _) (Nat.le_succ _)]
    exact suffixesAgree total t fun u r shorter => arraySuffixAgree total u (by omega) (Nat.le_refl _)
  list s := by
    refine listedAgree total (unboundedReads total) (fun _ _ => rfl) (Nat.lt_succ_self s.length) fun r shorter => ?_
    exact componentsAgree total (unboundedReads total) (fun _ _ => rfl) shorter shorter (Nat.lt_succ_self _)

theorem Descends.unique {read other : Bytes → Except ParseError (Ty ν × Bytes)} (sound : Faithful lookup read)
    (one : Descends total lookup read) (two : Descends total lookup other) : other = read := by
  have agree : ∀ bound s, s.length < bound → read s = other s := by
    intro bound
    induction bound with
    | zero => exact fun _ small => absurd small (Nat.not_lt_zero _)
    | succ bound ih =>
      intro s small
      rw [one.type, two.type, baseAgree total sound ih (Nat.le_of_lt_succ small)]
  funext s
  exact (agree _ s (Nat.lt_succ_self _)).symm

/- A text is read as a type exactly when it derives that type, by one tree. The reader is the one function that
satisfies the equations without bounds. -/
theorem typesReadExactly (lookup : Bytes → Option (Ty ν)) (s : Bytes) :
    (∀ t, parseBytes lookup s = .ok t ↔ ∃ e, Derives lookup s e t) ∧
    (∀ e e' t t', Derives lookup s e t → Derives lookup s e' t' → e = e' ∧ t = t') ∧
    ∃ read, Descends s.length lookup read ∧ (∀ other, Descends s.length lookup other → other = read) ∧
      parseBytes lookup s = read s >>= finish s.length := by
  refine ⟨fun t => ⟨parsedDerives, fun ⟨_, derives⟩ => derivedParses derives⟩, ?_, ?_⟩
  · intro e e' t t' one other
    have same : Except.ok t = Except.ok t' := (derivedParses one).symm.trans (derivedParses other)
    cases same
    exact ⟨treeUnique one other, rfl⟩
  · refine ⟨unbounded s.length lookup, unboundedDescends s.length lookup, fun other equations => ?_, rfl⟩
    exact (unboundedDescends s.length lookup).unique s.length (unboundedReads s.length) equations

end CellChain.Ty
