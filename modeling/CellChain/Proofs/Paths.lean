import Mathlib
import CellChain.Workspace
/-! Paths by their parts. Cleaning, joining and taking the directory are told as one walk over the parts, and a file
that is read stands under the absolute path that it was asked for. An import therefore leads to the same absolute
path, whichever spelling the importing file was met under. -/
namespace CellChain.Path

theorem splitAppend (current xs ys : List Char) :
    splitChars current (xs ++ '/' :: ys) = splitChars current xs ++ splitChars [] ys := by
  induction xs generalizing current with
  | nil => rw [List.nil_append, splitChars, splitChars, List.singleton_append]
  | cons c rest ih =>
    by_cases slash : c = '/'
    · rw [slash, List.cons_append, splitChars, splitChars, ih, List.cons_append]
    · rw [List.cons_append, splitChars, splitChars, ih] <;> exact fun same => slash same

theorem splitPlain {current xs : List Char} (plain : '/' ∉ xs) :
    splitChars current xs = [String.ofList (current.reverse ++ xs)] := by
  induction xs generalizing current with
  | nil => rw [splitChars, List.append_nil]
  | cons c rest ih =>
    rw [List.mem_cons, not_or] at plain
    rw [splitChars, ih plain.2, List.reverse_cons, List.append_assoc, List.singleton_append]
    exact fun same => plain.1 same.symm

theorem splitFree {current xs : List Char} {part : String} (plain : '/' ∉ current)
    (inside : part ∈ splitChars current xs) : '/' ∉ part.toList := by
  induction xs generalizing current with
  | nil =>
    rw [splitChars, List.mem_singleton] at inside
    rwa [inside, String.toList_ofList, List.mem_reverse]
  | cons c rest ih =>
    by_cases slash : c = '/'
    · rw [slash, splitChars, List.mem_cons] at inside
      rcases inside with rfl | later
      · rwa [String.toList_ofList, List.mem_reverse]
      · exact ih List.not_mem_nil later
    · rw [splitChars] at inside
      · exact ih (List.not_mem_cons_of_ne_of_not_mem (Ne.symm slash) plain) inside
      · exact fun same => slash same

theorem partsJoin (a b : String) : parts (a ++ "/" ++ b) = parts a ++ parts b := by
  have slash : (a ++ "/" ++ b).toList = a.toList ++ '/' :: b.toList := by simp
  rw [parts, slash, splitAppend, parts, parts]

theorem partsPlain {s : String} (plain : '/' ∉ s.toList) : parts s = [s] := by
  rw [parts, splitPlain plain, List.reverse_nil, List.nil_append, String.ofList_toList]

theorem partsFree {path part : String} (inside : part ∈ parts path) : '/' ∉ part.toList :=
  splitFree List.not_mem_nil inside

theorem partsIntercalate {ks : List String} (some : ks ≠ []) (plain : ∀ k ∈ ks, '/' ∉ k.toList) :
    parts (String.intercalate "/" ks) = ks := by
  induction ks with
  | nil => exact absurd rfl some
  | cons k rest ih =>
    have own := partsPlain (plain k List.mem_cons_self)
    cases rest with
    | nil => rw [String.intercalate_singleton, own]
    | cons next later =>
      rw [String.intercalate_cons_cons, partsJoin, own, ih (List.cons_ne_nil _ _), List.singleton_append]
      exact fun x inside => plain x (List.mem_cons_of_mem _ inside)

theorem splitListed (current xs : List Char) : ∃ first more, splitChars current xs = first :: more := by
  induction xs generalizing current with
  | nil => exact ⟨_, _, splitChars.eq_1 current⟩
  | cons c rest ih =>
    by_cases slash : c = '/'
    · exact ⟨_, _, by rw [slash, splitChars]⟩
    · rw [splitChars]
      · exact ih (c :: current)
      · exact fun same => slash same

theorem splitIntercalate (current xs : List Char) :
    String.intercalate "/" (splitChars current xs) = String.ofList (current.reverse ++ xs) := by
  induction xs generalizing current with
  | nil => rw [splitChars, String.intercalate_singleton, List.append_nil]
  | cons c rest ih =>
    by_cases slash : c = '/'
    · obtain ⟨first, more, parted⟩ := splitListed [] rest
      rw [slash, splitChars, parted, String.intercalate_cons_cons, ← parted, ih, ← String.toList_inj]
      simp
    · rw [splitChars, ih, List.reverse_cons, List.append_assoc, List.singleton_append]
      exact fun same => slash same

theorem intercalateParts (path : String) : String.intercalate "/" (parts path) = path := by
  rw [parts, splitIntercalate, List.reverse_nil, List.nil_append, String.ofList_toList]

theorem rootedJoin {a : String} (some : a ≠ "") (b : String) : isRooted (a ++ "/" ++ b) = isRooted a := by
  have nonempty : a.toList ≠ [] := fun empty => some (String.toList_eq_nil_iff.1 empty)
  obtain ⟨c, rest, same⟩ := List.exists_cons_of_ne_nil nonempty
  simp [isRooted, same]

theorem plainUnrooted {s : String} (plain : '/' ∉ s.toList) : isRooted s = false := by
  rw [isRooted, beq_eq_false_iff_ne]
  exact fun first => plain (List.mem_of_mem_head? first)

theorem lastSlash (path : String) : '/' ∉ path.toList ∨ ∃ a b, path = a ++ "/" ++ b ∧ '/' ∉ b.toList := by
  have divided : ∀ xs : List Char, '/' ∉ xs ∨ ∃ ys zs, xs = ys ++ '/' :: zs ∧ '/' ∉ zs := by
    intro xs
    induction xs with
    | nil => exact .inl List.not_mem_nil
    | cons c rest ih =>
      rcases ih with plain | ⟨ys, zs, same, plain⟩
      · by_cases slash : c = '/'
        · exact .inr ⟨[], rest, by rw [slash, List.nil_append], plain⟩
        · exact .inl (List.not_mem_cons_of_ne_of_not_mem (Ne.symm slash) plain)
      · exact .inr ⟨c :: ys, zs, by rw [same, List.cons_append], plain⟩
  rcases divided path.toList with plain | ⟨ys, zs, same, plain⟩
  · exact .inl plain
  · refine .inr ⟨String.ofList ys, String.ofList zs, ?_, by rwa [String.toList_ofList]⟩
    rw [← String.toList_inj, same]
    simp

def resolve (rooted : Bool) (kept ps : List String) : List String := ps.foldl (pushPart rooted) kept

theorem resolveAppend (rooted : Bool) (kept xs ys : List String) :
    resolve rooted kept (xs ++ ys) = resolve rooted (resolve rooted kept xs) ys := List.foldl_append

theorem resolveOne (rooted : Bool) (kept : List String) (part : String) :
    resolve rooted kept [part] = pushPart rooted kept part := rfl

theorem cleanResolve (rooted : Bool) (ps : List String) : cleanParts rooted ps = (resolve rooted [] ps).reverse := rfl

def Proper (part : String) : Prop := part ≠ "" ∧ part ≠ "." ∧ part ≠ ".."

theorem pushBlank {rooted : Bool} {kept : List String} {part : String} (blank : part = "" ∨ part = ".") :
    pushPart rooted kept part = kept := if_pos blank

theorem resolveBlank {rooted : Bool} {kept : List String} {part : String} (blank : part = "" ∨ part = ".")
    (ps : List String) : resolve rooted kept (part :: ps) = resolve rooted kept ps := by
  change resolve rooted (pushPart rooted kept part) ps = _
  rw [pushBlank blank]

theorem pushProper {rooted : Bool} {kept : List String} {part : String} (proper : Proper part) :
    pushPart rooted kept part = part :: kept := by
  obtain ⟨named, dot, up⟩ := proper
  rw [pushPart.eq_def, if_neg (not_or.2 ⟨named, dot⟩), if_neg up]

theorem pushUpProper {rooted : Bool} {kept : List String} {part : String} (proper : Proper part) :
    pushPart rooted (part :: kept) ".." = kept := by
  simp [pushPart, proper.2.2]

theorem pushUpUp (rooted : Bool) (kept : List String) : pushPart rooted (".." :: kept) ".." = ".." :: ".." :: kept := by
  simp [pushPart]

theorem pushUpNone (rooted : Bool) : pushPart rooted [] ".." = if rooted then [] else [".."] := by
  simp [pushPart]

theorem resolveMem {rooted : Bool} {kept ps : List String} {k : String} (inside : k ∈ resolve rooted kept ps) :
    k ∈ kept ∨ k ∈ ps ∧ k ≠ "" ∧ k ≠ "." := by
  induction ps using List.reverseRecOn with
  | nil => exact .inl inside
  | append_singleton rest part ih =>
    rw [resolveAppend, resolveOne] at inside
    have before : k ∈ resolve rooted kept rest → k ∈ kept ∨ k ∈ rest ++ [part] ∧ k ≠ "" ∧ k ≠ "." := by
      intro earlier
      exact (ih earlier).imp_right fun ⟨own, named⟩ => ⟨List.mem_append_left _ own, named⟩
    have last : k = part → ¬ (part = "" ∨ part = ".") → k ∈ kept ∨ k ∈ rest ++ [part] ∧ k ≠ "" ∧ k ≠ "." := by
      intro same other
      exact .inr ⟨by simp [same], same ▸ not_or.1 other⟩
    unfold pushPart at inside
    split at inside
    · exact before inside
    · rename_i other
      split at inside
      · rename_i up
        split at inside
        · split at inside
          · cases inside
          · exact last (by rw [List.mem_singleton.1 inside, up]) other
        · rename_i top below same
          split at inside
          · rcases List.mem_cons.1 inside with rfl | later
            · exact last up.symm other
            · exact before later
          · exact before (same ▸ List.mem_cons_of_mem _ inside)
      · rcases List.mem_cons.1 inside with rfl | later
        · exact last rfl other
        · exact before later

theorem resolveUps {rooted : Bool} {ps : List String} (above : List String) {below : List String}
    (kept : resolve rooted [] ps = above ++ ".." :: below) : ∀ k ∈ below, k = ".." := by
  induction ps using List.reverseRecOn generalizing above below with
  | nil => simp [resolve] at kept
  | append_singleton rest part ih =>
    rw [resolveAppend, resolveOne] at kept
    by_cases blank : part = "" ∨ part = "."
    · rw [pushBlank blank] at kept
      exact ih above kept
    · by_cases up : part = ".."
      · subst up
        cases top : resolve rooted [] rest with
        | nil =>
          rw [top, pushUpNone] at kept
          cases rooted with
          | true => simp at kept
          | false =>
            cases above with
            | nil =>
              cases kept
              exact nofun
            | cons a more => simp at kept
        | cons last under =>
          by_cases again : last = ".."
          · subst again
            rw [top, pushUpUp] at kept
            cases above with
            | nil =>
              obtain ⟨-, rfl⟩ := List.cons.inj kept
              intro k inside
              rcases List.mem_cons.1 inside with rfl | later
              · rfl
              · exact ih [] top k later
            | cons a more => exact ih more (top.trans (List.cons.inj kept).2)
          · have own : last ∈ resolve rooted [] rest := top ▸ List.mem_cons_self
            obtain ⟨-, named, dot⟩ := (resolveMem own).resolve_left List.not_mem_nil
            rw [top, pushUpProper ⟨named, dot, again⟩] at kept
            exact ih (last :: above) (by rw [top, kept, List.cons_append])
      · rw [pushProper ⟨(not_or.1 blank).1, (not_or.1 blank).2, up⟩] at kept
        cases above with
        | nil => exact absurd (List.cons.inj kept).1 up
        | cons a more => exact ih more (List.cons.inj kept).2

/- Cleaned parts lead where the parts led. Only at the root a step up is lost, so rooted parts have to start there. -/
theorem resolveClean {rooted s : Bool} {kept : List String} (start : s = true → rooted = true ∧ kept = [])
    (ps : List String) : resolve rooted kept (cleanParts s ps) = resolve rooted kept ps := by
  induction ps using List.reverseRecOn with
  | nil => rfl
  | append_singleton rest part ih =>
    rw [cleanResolve] at ih ⊢
    rw [resolveAppend, resolveAppend, ← ih, resolveOne, resolveOne]
    have push : ∀ part, resolve rooted kept (part :: resolve s [] rest).reverse =
        pushPart rooted (resolve rooted kept (resolve s [] rest).reverse) part := by
      intro part
      rw [List.reverse_cons, resolveAppend, resolveOne]
    by_cases blank : part = "" ∨ part = "."
    · rw [pushBlank blank, pushBlank blank]
    · by_cases up : part = ".."
      · subst up
        cases top : resolve s [] rest with
        | nil =>
          rw [pushUpNone]
          cases s with
          | false => rfl
          | true =>
            obtain ⟨rfl, rfl⟩ := start rfl
            rfl
        | cons last below =>
          by_cases again : last = ".."
          · rw [again, pushUpUp, ← again, ← top, push, again]
          · have own : last ∈ resolve s [] rest := top ▸ List.mem_cons_self
            have proper : Proper last := by
              obtain ⟨-, named, dot⟩ := (resolveMem own).resolve_left List.not_mem_nil
              exact ⟨named, dot, again⟩
            rw [pushUpProper proper, List.reverse_cons, resolveAppend, resolveOne, pushProper proper,
              pushUpProper proper]
      · rw [pushProper ⟨fun empty => blank (.inl empty), fun dot => blank (.inr dot), up⟩, push]

theorem resolveBelow (rooted : Bool) (kept ps : List String) :
    resolve rooted kept (cleanParts false ps) = resolve rooted kept ps :=
  resolveClean (fun same => by cases same) ps

theorem cleanAppend (rooted : Bool) (xs ys : List String) :
    cleanParts rooted (cleanParts rooted xs ++ ys) = cleanParts rooted (xs ++ ys) := by
  have start : rooted = true → rooted = true ∧ ([] : List String) = [] := fun same => ⟨same, rfl⟩
  rw [cleanResolve rooted (_ ++ ys), resolveAppend, resolveClean start, ← resolveAppend, cleanResolve]

theorem cleanAgain (rooted : Bool) (xs : List String) :
    cleanParts rooted (cleanParts rooted xs) = cleanParts rooted xs := by
  simpa using cleanAppend rooted xs []

theorem cleanBlank (rooted : Bool) {part : String} (blank : part = "" ∨ part = ".") (ps : List String) :
    cleanParts rooted (part :: ps) = cleanParts rooted ps := by
  rw [cleanResolve, resolveBlank blank, cleanResolve]

theorem cleanLast {rooted : Bool} {part : String} (proper : Proper part) (ps : List String) :
    cleanParts rooted (ps ++ [part]) = cleanParts rooted ps ++ [part] := by
  rw [cleanResolve, cleanResolve, resolveAppend, resolveOne, pushProper proper, List.reverse_cons]

theorem cleanMem {rooted : Bool} {ps : List String} {k : String} (inside : k ∈ cleanParts rooted ps) :
    k ∈ ps ∧ k ≠ "" ∧ k ≠ "." := by
  rw [cleanResolve, List.mem_reverse] at inside
  exact (resolveMem inside).resolve_left List.not_mem_nil

def render (rooted : Bool) (kept : List String) : String :=
  let text := String.intercalate "/" kept
  if rooted then "/" ++ text else if text = "" then "." else text

theorem cleanRender (path : String) :
    clean path = render (isRooted path) (cleanParts (isRooted path) (parts path)) := rfl

def Plain (ks : List String) : Prop := ∀ k ∈ ks, '/' ∉ k.toList ∧ k ≠ ""

theorem cleanPlain {rooted : Bool} {ps : List String} (free : ∀ k ∈ ps, '/' ∉ k.toList) :
    Plain (cleanParts rooted ps) := by
  intro k inside
  obtain ⟨own, named, -⟩ := cleanMem inside
  exact ⟨free k own, named⟩

theorem renderText {rooted : Bool} {ks : List String} (listed : ks ≠ []) (plain : Plain ks) :
    render rooted ks = (if rooted then "/" else "") ++ String.intercalate "/" ks := by
  have nonempty : String.intercalate "/" ks ≠ "" := by
    cases ks with
    | nil => exact absurd rfl listed
    | cons k rest =>
      have named := (plain k List.mem_cons_self).2
      cases rest with
      | nil => rwa [String.intercalate_singleton]
      | cons next later =>
        rw [String.intercalate_cons_cons]
        exact fun empty => named (by simp_all)
  cases rooted with
  | false => simp [render, nonempty]
  | true => rfl

theorem partsRender {rooted : Bool} {ks : List String} (listed : ks ≠ []) (plain : Plain ks) :
    parts (render rooted ks) = if rooted then "" :: ks else ks := by
  have own := partsIntercalate listed fun k inside => (plain k inside).1
  rw [renderText listed plain]
  cases rooted with
  | false => simp [own]
  | true =>
    have split := partsJoin "" (String.intercalate "/" ks)
    rw [own] at split
    simpa [partsPlain] using split

theorem rootedRender {rooted : Bool} {ks : List String} (plain : Plain ks) : isRooted (render rooted ks) = rooted := by
  cases rooted with
  | true => simp [render, isRooted]
  | false =>
    cases ks with
    | nil => rfl
    | cons k rest =>
      obtain ⟨free, named⟩ := plain k List.mem_cons_self
      have unrooted := plainUnrooted free
      rw [renderText (List.cons_ne_nil _ _) plain]
      cases rest with
      | nil => simpa using unrooted
      | cons next later =>
        rw [String.intercalate_cons_cons]
        simpa [rootedJoin named] using unrooted

theorem resolveRender {rooted s : Bool} {kept ks : List String} (plain : Plain ks) :
    resolve s kept (parts (render rooted ks)) = resolve s kept ks := by
  cases ks with
  | nil =>
    cases rooted with
    | false =>
      have dot : parts (render false []) = ["."] := rfl
      rw [dot, resolveBlank (.inr rfl)]
    | true =>
      have slash : parts (render true []) = ["", ""] := rfl
      rw [slash, resolveBlank (.inl rfl), resolveBlank (.inl rfl)]
  | cons k rest =>
    rw [partsRender (List.cons_ne_nil _ _) plain]
    cases rooted with
    | false => rfl
    | true => rw [if_pos rfl, resolveBlank (.inl rfl)]

theorem renderNonempty (rooted : Bool) (ks : List String) : render rooted ks ≠ "" := by
  unfold render
  cases rooted with
  | true => simp
  | false =>
    simp only [Bool.false_eq_true, if_false]
    split
    · simp
    · assumption

theorem joinRender {base : String} (named : base ≠ "") (path : String) :
    join base path = render (isRooted base) (cleanParts (isRooted base) (parts base ++ parts path)) := by
  rw [join, if_neg named, cleanRender, rootedJoin named, partsJoin]

theorem dirRender (path : String) :
    dir path = render (isRooted path) (cleanParts (isRooted path) (parts path).dropLast) := by
  have behind : ∀ {s : String}, '/' ∉ s.toList → ∀ c ∈ s.toList.reverse, (c != '/') = true := by
    intro s plain c inside
    rw [List.mem_reverse] at inside
    exact bne_iff_ne.2 fun slash => plain (slash ▸ inside)
  rcases lastSlash path with plain | ⟨a, b, rfl, plain⟩
  · rw [dir, List.dropWhile_eq_nil_iff.2 (behind plain), partsPlain plain, plainUnrooted plain]
    rfl
  · have before : String.ofList ((a ++ "/" ++ b).toList.reverse.dropWhile (· != '/')).reverse = a ++ "/" ++ "" := by
      have chars : (a ++ "/" ++ b).toList.reverse = b.toList.reverse ++ '/' :: a.toList.reverse := by simp
      rw [chars, List.dropWhile_append_of_pos (behind plain)]
      simp
    have rooted : isRooted (a ++ "/" ++ b) = isRooted (a ++ "/" ++ "") := by
      by_cases empty : a = ""
      · simp [empty, isRooted]
      · rw [rootedJoin empty, rootedJoin empty]
    rw [dir, before, cleanRender, rooted, partsJoin, partsJoin, partsPlain plain, List.dropLast_concat]
    have empty : parts "" = [""] := rfl
    rw [empty, cleanResolve, resolveAppend, resolveOne, pushBlank (.inl rfl), ← cleanResolve]

theorem joinDir (path text : String) : join (dir path) text =
    render (isRooted path) (cleanParts (isRooted path) ((parts path).dropLast ++ parts text)) := by
  have plain : Plain (cleanParts (isRooted path) (parts path).dropLast) :=
    cleanPlain fun k inside => partsFree (List.mem_of_mem_dropLast inside)
  rw [joinRender (dirRender path ▸ renderNonempty _ _), dirRender, rootedRender plain, cleanResolve, resolveAppend,
    resolveRender plain, ← resolveAppend, ← cleanResolve, cleanAppend]

theorem joinDirRender {rooted : Bool} {ps : List String} {last : String} (free : ∀ k ∈ ps, '/' ∉ k.toList)
    (plain : '/' ∉ last.toList) (proper : Proper last) (text : String) :
    join (dir (render rooted (cleanParts rooted (ps ++ [last])))) text =
      render rooted (cleanParts rooted (ps ++ parts text)) := by
  have names : Plain (cleanParts rooted (ps ++ [last])) := by
    apply cleanPlain
    intro k inside
    rcases List.mem_append.1 inside with own | one
    · exact free k own
    · rwa [List.mem_singleton.1 one]
  have listed : cleanParts rooted (ps ++ [last]) ≠ [] := by simp [cleanLast proper]
  rw [joinDir, rootedRender names, partsRender listed names]
  congr 1
  cases rooted with
  | false => rw [if_neg Bool.false_ne_true, cleanLast proper, List.dropLast_concat, cleanAppend]
  | true =>
    rw [if_pos rfl, cleanLast proper, ← List.cons_append, List.dropLast_concat, List.cons_append,
      cleanBlank true (.inl rfl), cleanAppend]

theorem cleanStep {rooted : Bool} {here : List String} (clean : cleanParts rooted here = here) (part : String) :
    (Proper part ∧ cleanParts rooted (here ++ [part]) = here ++ [part]) ∨
      (¬ Proper part ∧ ((∃ n ≤ here.length, cleanParts rooted (here ++ [part]) = here.take n) ∨
        ∀ k ∈ cleanParts rooted (here ++ [part]), k = "..")) := by
  have kept : resolve rooted [] here =
    here.reverse := by rw [← clean, cleanResolve, List.reverse_reverse, ← cleanResolve, clean]
  by_cases proper : Proper part
  · exact .inl ⟨proper, by rw [cleanLast proper, clean]⟩
  · refine .inr ⟨proper, ?_⟩
    rw [cleanResolve, resolveAppend, resolveOne, kept]
    by_cases blank : part = "" ∨ part = "."
    · exact .inl ⟨here.length, le_rfl, by rw [pushBlank blank, List.reverse_reverse, List.take_length]⟩
    · have up : part = ".." := by_contra fun other => proper ⟨(not_or.1 blank).1, (not_or.1 blank).2, other⟩
      subst up
      cases top : here.reverse with
      | nil =>
        rw [pushUpNone]
        cases rooted with
        | true => exact .inl ⟨0, Nat.zero_le _, rfl⟩
        | false => exact .inr (by simp)
      | cons last below =>
        have whole : here = below.reverse ++ [last] := by rw [← List.reverse_reverse here, top, List.reverse_cons]
        by_cases again : last = ".."
        · subst again
          have ups := resolveUps [] (kept.trans top)
          right
          intro k inside
          rw [pushUpUp, List.mem_reverse] at inside
          simp only [List.mem_cons] at inside
          rcases inside with rfl | rfl | later
          · rfl
          · rfl
          · exact ups k later
        · have own : last ∈ cleanParts rooted here := by rw [clean, whole]; simp
          obtain ⟨-, named, dot⟩ := cleanMem own
          refine .inl ⟨below.length, by simp [whole], ?_⟩
          rw [pushUpProper ⟨named, dot, again⟩, whole, ← List.length_reverse, List.take_left]

end CellChain.Path

namespace CellChain.Workspace

open CellChain.Path

theorem absoluteRooted {w : Workspace} {path : String} (rooted : isRooted path = true) :
    w.absolute path = render true (cleanParts true (parts path)) := by
  rw [absolute, if_pos rooted, cleanRender, rooted]

theorem absoluteBelow {w : Workspace} {path : String} (below : isRooted path = false) (named : path ≠ "") :
    w.absolute path =
      render (isRooted w.root) (cleanParts (isRooted w.root) (parts w.root ++ parts path)) := by
  rw [absolute, if_neg (by rw [below]; exact Bool.false_ne_true)]
  by_cases empty : w.root = ""
  · have blank : parts "" ++ parts path = "" :: parts path := rfl
    have off : isRooted "" = false := rfl
    rw [empty, join, if_pos rfl, if_neg named, cleanRender, below, blank, off, cleanBlank false (.inl rfl)]
  · exact joinRender empty path

theorem absoluteClean {w : Workspace} {path : String} (named : path ≠ "") :
    w.absolute (clean path) = w.absolute path := by
  have plain : Plain (cleanParts (isRooted path) (parts path)) := cleanPlain fun k => partsFree
  have same : isRooted (clean path) = isRooted path := rootedRender plain
  cases rooted : isRooted path with
  | true =>
    rw [absoluteRooted (same.trans rooted), absoluteRooted rooted, cleanResolve, cleanRender, resolveRender plain,
      rooted, ← cleanResolve, cleanAgain]
  | false =>
    rw [absoluteBelow (same.trans rooted) (renderNonempty _ _), absoluteBelow rooted named, cleanResolve, resolveAppend,
      cleanRender, resolveRender plain, rooted, resolveBelow, ← resolveAppend, ← cleanResolve]

theorem absoluteImport {w : Workspace} {path last : String} {before : List String}
    (ends : parts path = before ++ [last])
    (proper : Proper last) (text : String) :
    w.absolute (join (dir path) text) = join (dir (w.absolute path)) text := by
  have free : ∀ k ∈ before ++ [last], '/' ∉ k.toList := fun k inside => partsFree (ends ▸ inside)
  have plain := free last (by simp)
  have named : path ≠ "" := by
    rintro rfl
    have own : last ∈ parts "" := ends ▸ by simp
    exact proper.1 (List.mem_singleton.1 own)
  have names : Plain (cleanParts (isRooted path) (before ++ parts text)) := by
    apply cleanPlain
    intro k inside
    rcases List.mem_append.1 inside with own | other
    · exact free k (List.mem_append_left _ own)
    · exact partsFree other
  have target := joinDir path text
  rw [ends, List.dropLast_concat] at target
  have same : isRooted (join (dir path) text) = isRooted path := by rw [target, rootedRender names]
  cases rooted : isRooted path with
  | true =>
    rw [absoluteRooted (same.trans rooted), absoluteRooted rooted, ends,
      joinDirRender (fun k inside => free k (List.mem_append_left _ inside)) plain proper, cleanResolve, target,
      resolveRender names, rooted, ← cleanResolve, cleanAgain]
  | false =>
    have all : ∀ k ∈ parts w.root ++ before, '/' ∉ k.toList := by
      intro k inside
      rcases List.mem_append.1 inside with own | other
      · exact partsFree own
      · exact free k (List.mem_append_left _ other)
    rw [absoluteBelow (same.trans rooted) (target ▸ renderNonempty _ _), absoluteBelow rooted named, ends,
      ← List.append_assoc, joinDirRender all plain proper, cleanResolve, resolveAppend, target, resolveRender names,
      rooted, resolveBelow, ← resolveAppend, ← cleanResolve, List.append_assoc]

theorem entryUps {w : Workspace} {rooted : Bool} {ps : List String} (ups : ∀ k ∈ ps, k = "..") :
    w.entry? rooted ps = some .directory := by
  have all : ps.all (· == "..") = true := List.all_eq_true.2 fun k inside => beq_iff_eq.2 (ups k inside)
  rw [ entry?, if_pos all]

theorem entryFile {w : Workspace} {rooted : Bool} {ps : List String} {text : String} (plain : Plain ps)
    (found : w.entry? rooted ps = some (.file text)) : (render rooted ps, text) ∈ w.files := by
  unfold entry? at found
  split at found
  · cases found
  · rename_i others
    have listed : ps ≠ [] := by
      rintro rfl
      exact others rfl
    simp only at found
    split at found
    · rename_i key own first
      cases found
      have same := List.find?_some first
      rw [beq_iff_eq] at same
      have spelled : render rooted ps = key := by
        rw [← intercalateParts (render rooted ps), partsRender listed plain, ← same, intercalateParts]
      rw [spelled]
      exact List.mem_of_find?_eq_some first
    · split_ifs at found <;> cases found

theorem walkFile {w : Workspace} {rooted : Bool} {here rest : List String} {text : String}
    (clean : cleanParts rooted here = here)
    (passed : ∀ n < here.length, w.entry? rooted (here.take n) = some .directory)
    (ok : w.walk rooted here rest = .ok (.file text)) :
    w.entry? rooted (cleanParts rooted (here ++ rest)) = some (.file text) ∧
      ∀ last, rest.getLast? = some last → Proper last := by
  induction rest generalizing here with
  | nil =>
    rw [List.append_nil, clean]
    unfold walk at ok
    split at ok
    · rename_i e found
      cases ok
      exact ⟨found, nofun⟩
    · cases ok
  | cons part rest ih =>
    unfold walk at ok
    split at ok
    · cases ok
    · cases ok
    · split at ok
      · cases ok
      · have upTo : ∀ n ≤ here.length, w.entry? rooted (here.take n) = some .directory := by
          intro n low
          rcases Nat.lt_or_eq_of_le low with less | rfl
          · exact passed n less
          · rwa [List.take_length]
        have step := cleanStep clean part
        have next : ∀ n < (cleanParts rooted (here ++ [part])).length,
            w.entry? rooted ((cleanParts rooted (here ++ [part])).take n) = some .directory := by
          intro n less
          rcases step with ⟨-, same⟩ | ⟨-, ⟨m, low, same⟩ | ups⟩
          · rw [same, List.length_append, List.length_singleton, Nat.lt_succ_iff] at less
            rw [same, List.take_append_of_le_length less]
            exact upTo n less
          · rw [same, List.take_take]
            exact upTo _ ((Nat.min_le_right _ _).trans low)
          · exact entryUps fun k inside => ups k (List.mem_of_mem_take inside)
        obtain ⟨file, ends⟩ := ih (cleanAgain rooted _) next ok
        rw [cleanAppend, List.append_assoc, List.singleton_append] at file
        refine ⟨file, fun last final => ?_⟩
        cases rest with
        | cons more others => exact ends last (by rwa [List.getLast?_cons_cons] at final)
        | nil =>
          cases final
          rcases step with ⟨proper, -⟩ | ⟨-, ⟨m, low, same⟩ | ups⟩
          · exact proper
          · rw [same, upTo m low] at file
            cases file
          · rw [entryUps ups] at file
            cases file

theorem readFile {w : Workspace} {path text : String} (ok : w.read path = .ok text) :
    (clean path, text) ∈ w.files ∧ w.absolute (clean path) = w.absolute path ∧
      ∃ before last, parts path = before ++ [last] ∧ Proper last := by
  have found : w.find path = .ok (.file text) := by
    unfold read at ok
    split at ok
    · rename_i same
      cases ok
      exact same
    · cases ok
    · cases ok
  unfold find at found
  split at found
  · cases found
  · rename_i named
    split at found
    · cases found
    · split at found
      · cases found
      · obtain ⟨file, ends⟩ := walkFile rfl (fun n less => by cases less) found
        obtain ⟨first, more, listed⟩ := splitListed [] path.toList
        refine ⟨entryFile (cleanPlain fun k => partsFree) file, absoluteClean named, ?_⟩
        rcases List.eq_nil_or_concat (parts path) with none | ⟨before, last, same⟩
        · rw [parts, listed] at none
          cases none
        · rw [List.concat_eq_append] at same
          exact ⟨before, last, same, ends last (by rw [same, List.getLast?_concat])⟩

theorem readsImport {w : Workspace} {path text : String} (ok : w.read path = .ok text) (target : String) :
    w.absolute (join (dir path) target) = join (dir (w.absolute path)) target := by
  obtain ⟨-, -, before, last, ends, proper⟩ := readFile ok
  exact absoluteImport ends proper target

end CellChain.Workspace
