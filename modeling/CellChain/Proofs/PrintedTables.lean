import Mathlib
import CellChain.Text.Grid
/-! What a printed table shows. Every text stands in its column, broken into lines at blanks only, and every line fills
the columns, so that what is between the bars can be told from what fills them up. -/
namespace CellChain.Text.Grid

def Fills (w : Nat) (s field : String) : Prop :=
  ∃ before after, field = String.ofList (List.replicate before ' ') ++ s ++ String.ofList (List.replicate after ' ') ∧
    before + displayWidth s + after = w

def Line (widths : List Nat) (texts : List String) (line : String) : Prop :=
  ∃ fields, widths.length = texts.length ∧ List.Forall₂ (fun p field => Fills p.1 p.2 field) (widths.zip texts) fields ∧
    line = "|" ++ String.join (fields.map fun field => " " ++ field ++ " |") ++ "\n"

/- The lines of a row. The pieces down a column make up its text, in which line ends count as blanks; below them the
column is empty. -/
def Row (widths : List Nat) (texts : List String) (shown : String) : Prop :=
  ∃ (columns : List (List String)) (lines : List String),
    List.Forall₂ (fun text pieces => pieces.length ≤ lines.length ∧
      String.intercalate " " pieces = text.map fun c => if c = '\n' then ' ' else c) texts columns ∧
    List.Forall₂ (fun k line => Line widths (columns.map fun pieces => pieces[k]?.getD "") line)
      (List.range lines.length) lines ∧
    shown = String.join lines

def edge (widths : List Nat) : String :=
  "+" ++ String.join (widths.map fun w => String.ofList (List.replicate (w + 2) '-') ++ "+") ++ "\n"

def Shows (headings : List String) (rows : List (List String)) (text : String) : Prop :=
  ∃ widths head blocks, Line widths headings head ∧ List.Forall₂ (Row widths) rows blocks ∧
    text = edge widths ++ head ++ edge widths ++ String.join blocks ++ edge widths

theorem cheapestSome {limit taken phrase : Nat} {lengths : List Nat} {later : List (Nat × Nat)} {best : Nat × Nat}
    (own : 1 ≤ taken) (some : 1 ≤ best.2) : 1 ≤ (cheapest limit taken phrase lengths later best).2 := by
  induction later generalizing taken phrase lengths best with
  | nil => cases lengths <;> exact some
  | cons first later ih =>
    have next {c : Nat} : 1 ≤ (if c < best.1 then (c, taken) else best).2 := by
      split
      · exact own
      · exact some
    cases lengths with
    | nil => exact next
    | cons l rest => exact ih (Nat.le_succ_of_le own) next

theorem breaksPlan (limit : Nat) (lengths : List Nat) :
    (breaks limit lengths).length = lengths.length ∧ ∀ line ∈ breaks limit lengths, 1 ≤ line.2 := by
  induction lengths with
  | nil => exact ⟨rfl, List.forall_mem_nil _⟩
  | cons l rest ih =>
    rw [breaks]
    split
    · exact ⟨by simp [ih.1], List.forall_mem_cons.2 ⟨Nat.le_add_left 1 _, ih.2⟩⟩
    · exact ⟨by simp [ih.1], List.forall_mem_cons.2 ⟨cheapestSome le_rfl (Nat.le_add_left 1 _), ih.2⟩⟩

theorem takeLinesAll {n : Nat} {words : List String} {plan : List (Nat × Nat)} (same : plan.length = words.length)
    (enough : words.length ≤ n) (some : ∀ line ∈ plan, 1 ≤ line.2) :
    (takeLines n words plan).flatten = words ∧ ∀ line ∈ takeLines n words plan, line ≠ [] := by
  induction n generalizing words plan with
  | zero =>
    rw [List.length_eq_zero_iff.1 (Nat.le_zero.1 enough), takeLines]
    exact ⟨rfl, List.forall_mem_nil _⟩
  | succ n ih =>
    cases words with
    | nil =>
      rw [takeLines]
      exact ⟨rfl, List.forall_mem_nil _⟩
    | cons word rest =>
      cases plan with
      | nil => cases same
      | cons first later =>
        obtain ⟨cost, count⟩ := first
        obtain ⟨own, others⟩ := List.forall_mem_cons.1 some
        have planned : (((cost, count) :: later).drop count).length = ((word :: rest).drop count).length := by
          rw [List.length_drop, List.length_drop, same]
        -- Each line that is planned takes at least one word.
        have fewer : ((word :: rest).drop count).length ≤ n := by
          rw [List.length_drop]
          simp only [List.length_cons] at enough ⊢
          omega
        obtain ⟨whole, lines⟩ := ih planned fewer fun line inside => some line (List.mem_of_mem_drop inside)
        rw [takeLines]
        refine ⟨?_, List.forall_mem_cons.2 ⟨?_, lines⟩⟩
        · rw [List.flatten_cons, whole, List.take_append_drop]
        · rw [ne_eq, List.take_eq_nil_iff]
          rintro (none | none)
          · exact absurd own (by simp [none])
          · cases none

theorem joinedLines {lines : List (List String)} (some : ∀ line ∈ lines, line ≠ []) :
    String.intercalate " " (lines.map (String.intercalate " ")) = String.intercalate " " lines.flatten := by
  induction lines with
  | nil => rfl
  | cons line rest ih =>
    obtain ⟨own, others⟩ := List.forall_mem_cons.1 some
    cases rest with
    | nil => simp
    | cons next more =>
      have left : (next :: more).flatten ≠ [] := by
        rw [List.flatten_cons]
        exact List.append_ne_nil_of_left_ne_nil (others next List.mem_cons_self) _
      rw [List.map_cons, List.flatten_cons, String.intercalate_cons_of_ne_nil (by simp), ih others,
        String.intercalate_append_of_ne_nil own left]

theorem splitNotNil (mark : Char) (current cs : List Char) : splitAt mark current cs ≠ [] := by
  induction cs generalizing current with
  | nil => exact List.cons_ne_nil _ _
  | cons c rest ih =>
    rw [splitAt]
    split
    · exact List.cons_ne_nil _ _
    · exact ih _

theorem splitJoined (mark : Char) (current cs : List Char) :
    [' '].intercalate (splitAt mark current cs) =
      current.reverse ++ cs.map fun c => if c = mark then ' ' else c := by
  induction cs generalizing current with
  | nil => simp [splitAt]
  | cons c rest ih =>
    rw [splitAt]
    by_cases here : c = mark
    · rw [if_pos (beq_iff_eq.2 here), List.map_cons, if_pos here]
      have others := ih []
      cases later : splitAt mark [] rest with
      | nil => exact absurd later (splitNotNil mark [] rest)
      | cons first more =>
        rw [later] at others
        rw [List.intercalate_cons_cons, others]
        simp
    · rw [if_neg (by simpa using here), List.map_cons, if_neg here, ih]
      simp

theorem partsJoined (mark : Char) (text : String) :
    String.intercalate " " (parts mark text) = text.map fun c => if c = mark then ' ' else c := by
  have blank : " ".toList = [' '] := rfl
  apply String.toList_injective
  rw [String.toList_intercalate, parts, List.map_map, blank, String.toList_map]
  have same : String.toList ∘ String.ofList = id := by
    funext cs
    exact String.toList_ofList
  rw [same, List.map_id, splitJoined]
  rfl

theorem wrapJoined (limit : Nat) (text : String) : String.intercalate " " (wrap limit text) = text := by
  unfold wrap
  simp only
  generalize List.foldl max limit _ = most
  obtain ⟨length, counts⟩ := breaksPlan most ((parts ' ' text).map width)
  obtain ⟨whole, lines⟩ := takeLinesAll (by rw [length, List.length_map]) le_rfl counts
  rw [joinedLines lines, whole, partsJoined]
  have same : (fun c : Char => if c = ' ' then ' ' else c) = id := by
    funext c
    by_cases blank : c = ' ' <;> simp [blank]
  rw [same]
  exact String.toList_injective (by rw [String.toList_map, List.map_id])

theorem leFoldMax {n start : Nat} {list : List Nat} (small : n ≤ start ∨ n ∈ list) : n ≤ list.foldl max start := by
  induction list generalizing start with
  | nil => exact small.resolve_right List.not_mem_nil
  | cons first rest ih =>
    rw [List.foldl_cons]
    refine ih ?_
    rcases small with small | inside
    · exact .inl (small.trans (le_max_left _ _))
    · rcases List.mem_cons.1 inside with rfl | later
      · exact .inl (le_max_right _ _)
      · exact .inr later

structure Keeps (text : String) (c : Cell) : Prop where
  joined : String.intercalate " " c.lines = text.map fun c => if c = '\n' then ' ' else c
  wide : ∀ line ∈ c.lines, displayWidth line ≤ c.width

theorem cellKeeps (text : String) : Keeps text (cell text) := by
  simp only [cell]
  generalize min breakWidth _ = limit
  have joined := wrapJoined limit (String.intercalate " " (parts '\n' text))
  rw [partsJoined] at joined
  rw [partsJoined]
  generalize wrap limit _ = lines at joined ⊢
  exact ⟨joined, fun line inside => leFoldMax (.inr (List.mem_map_of_mem inside))⟩

theorem alignedFills {w : Nat} {s : String} (fits : displayWidth s ≤ w) : Fills w s (aligned w s) := by
  unfold aligned
  split
  · refine ⟨w - displayWidth s, 0, ?_, by omega⟩
    rw [atRight, blanks]
    simp
  · refine ⟨0, w - displayWidth s, ?_, by omega⟩
    rw [atLeft, blanks]
    simp

theorem inMiddleFills {w : Nat} {s : String} (fits : displayWidth s ≤ w) : Fills w s (inMiddle w s) :=
  ⟨(w - displayWidth s) / 2, w - displayWidth s - (w - displayWidth s) / 2, rfl, by omega⟩

theorem ruleLine {widths : List Nat} {texts : List String} {fill : Nat → String → String}
    (fits : List.Forall₂ (fun w text => Fills w text (fill w text)) widths texts) :
    Line widths texts (rule ((widths.zip texts).map fun p => fill p.1 p.2)) := by
  refine ⟨_, fits.length_eq, ?_, rfl⟩
  induction fits with
  | nil => exact .nil
  | cons own _ ih => exact .cons own ih

def Wide (widths : List Nat) (cells : List Cell) : Prop := List.Forall₂ (fun w c => c.width ≤ w) widths cells

theorem emptyWidth : displayWidth "" = 0 := by decide

theorem piecesFill {widths : List Nat} {texts : List String} {cells : List Cell} (kept : List.Forall₂ Keeps texts cells)
    (wide : Wide widths cells) (k : Nat) :
    List.Forall₂ (fun w s => Fills w s (aligned w s)) widths (cells.map fun c => c.lines[k]?.getD "") := by
  induction wide generalizing texts with
  | nil => exact .nil
  | @cons w c _ _ most _ ih =>
    cases kept with
    | cons own others =>
      have fits : displayWidth (c.lines[k]?.getD "") ≤ w := by
        cases found : c.lines[k]? with
        | none =>
          rw [Option.getD_none, emptyWidth]
          exact Nat.zero_le w
        | some line =>
          rw [Option.getD_some]
          exact (own.wide line (List.mem_of_getElem? found)).trans most
      exact .cons (alignedFills fits) (ih others)

theorem rowShown {widths : List Nat} {texts : List String} {cells : List Cell} (kept : List.Forall₂ Keeps texts cells)
    (wide : Wide widths cells) : Row widths texts (rowText widths cells) := by
  refine ⟨cells.map Cell.lines, _, ?_, ?_, rfl⟩
  · rw [List.forall₂_map_right_iff, List.length_map, List.length_range, List.forall₂_iff_zip]
    refine ⟨kept.length_eq, fun {text c} pair => ⟨?_, ((List.forall₂_iff_zip.1 kept).2 pair).joined⟩⟩
    exact leFoldMax (.inr (List.mem_map_of_mem (List.of_mem_zip pair).2))
  · rw [List.length_map, List.length_range, List.forall₂_map_right_iff, List.forall₂_same]
    intro k _
    have line := ruleLine (piecesFill kept wide k)
    rw [List.zip_map_right, List.map_map] at line
    rw [List.map_map]
    exact line

def widened (widths : List Nat) (row : List Cell) : List Nat := (widths.zip row).map fun p => max p.1 p.2.width

theorem widenedOwn {widths : List Nat} {row : List Cell} (full : row.length = widths.length) :
    Wide (widened widths row) row := by
  induction row generalizing widths with
  | nil => rw [widened, List.zip_nil_right]; exact .nil
  | cons c rest ih =>
    cases widths with
    | nil => cases full
    | cons w others => exact .cons (le_max_right w c.width) (ih (Nat.succ.inj full))

theorem Wide.widened {widths : List Nat} {cells row : List Cell} (wide : Wide widths cells)
    (full : row.length = widths.length) : Wide (widened widths row) cells := by
  induction wide generalizing row with
  | nil => exact .nil
  | @cons w c _ _ most _ ih =>
    cases row with
    | nil => cases full
    | cons d rest => exact .cons (most.trans (le_max_left w d.width)) (ih (Nat.succ.inj full))

theorem widenedFull {widths : List Nat} {row : List Cell} {rest : List (List Cell)}
    (full : ∀ r ∈ row :: rest, r.length = widths.length) : ∀ r ∈ rest, r.length = (widened widths row).length := by
  obtain ⟨own, others⟩ := List.forall_mem_cons.1 full
  intro r inside
  rw [others r inside, widened, List.length_map, List.length_zip, own, Nat.min_self]

theorem Wide.columns {rows : List (List Cell)} {widths : List Nat} {cells : List Cell} (wide : Wide widths cells)
    (full : ∀ row ∈ rows, row.length = widths.length) : Wide (columnWidths rows widths) cells := by
  induction rows generalizing widths with
  | nil => exact wide
  | cons row rest ih =>
    exact ih (wide.widened (full row List.mem_cons_self)) (widenedFull full)

theorem rowsWide {rows : List (List Cell)} {widths : List Nat} (full : ∀ row ∈ rows, row.length = widths.length) :
    ∀ row ∈ rows, Wide (columnWidths rows widths) row := by
  induction rows generalizing widths with
  | nil => exact List.forall_mem_nil _
  | cons row rest ih =>
    have own := widenedOwn (full row List.mem_cons_self)
    exact List.forall_mem_cons.2 ⟨own.columns (widenedFull full), ih (widenedFull full)⟩

theorem borderEdge (widths : List Nat) : border widths = edge widths := rfl

theorem renderShows {headings : List String} {rows : List (List String)}
    (full : ∀ row ∈ rows, row.length = headings.length) : Shows headings rows (render headings rows) := by
  have sized : ∀ row ∈ rows.map (List.map cell), row.length = (headings.map displayWidth).length := by
    intro row inside
    obtain ⟨texts, own, rfl⟩ := List.mem_map.1 inside
    rw [List.length_map, List.length_map, full texts own]
  have named : Wide (headings.map displayWidth) (headings.map fun h => ⟨[], displayWidth h⟩) := by
    rw [Wide, List.forall₂_map_left_iff, List.forall₂_map_right_iff, List.forall₂_same]
    exact fun _ _ => le_rfl
  have heads := named.columns sized
  have each := rowsWide sized
  unfold render
  simp only [borderEdge]
  generalize columnWidths (rows.map fun row => row.map cell) (headings.map displayWidth) = widths at heads each ⊢
  have lines : Line widths headings (rule ((widths.zip headings).map fun p => inMiddle p.1 p.2)) := by
    apply ruleLine
    rw [Wide, List.forall₂_map_right_iff] at heads
    exact heads.imp fun w h fits => inMiddleFills fits
  have blocks : List.Forall₂ (Row widths) rows ((rows.map fun row => row.map cell).map (rowText widths)) := by
    rw [List.map_map, List.forall₂_map_right_iff, List.forall₂_same]
    intro row inside
    have kept : List.Forall₂ Keeps row (row.map cell) := by
      rw [List.forall₂_map_right_iff, List.forall₂_same]
      exact fun text _ => cellKeeps text
    exact rowShown kept (each _ (List.mem_map_of_mem inside))
  exact ⟨widths, _, _, lines, blocks, rfl⟩

end CellChain.Text.Grid
