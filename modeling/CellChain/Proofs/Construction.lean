import Mathlib
import CellChain.Proofs.DefaultValues
/-! Records from arguments. Arguments by position and arguments by name, in any order, give the same code when each
argument goes with its member: a member that is no mapping asks for its argument once, by the place that its name has in
the order of the arguments. The code makes the tuple of the arguments' values, with an empty dictionary for each
mapping. -/
namespace CellChain

open Machine Emit

namespace Record

def pairs (r : Record) : List (String × Ty) := r.names.zip r.types

def askedNames (members : List (String × Ty)) : List String :=
  (members.filter fun m => !isMapping m.2).map Prod.fst

/- What a member does: a mapping starts empty, any other member asks for the argument at the place of its name. -/
def place (r : Record) (order : List String) (produce : Nat → Ty → Emit Unit) (m : String × Ty) : Emit Unit :=
  if isMapping m.2 then pushDefault m.2
  else do
    let before ← depth
    produce (order.idxOf m.1) m.2
    ensureDepth (before + 1) (r.name ++ " constructor argument " ++ toString (order.idxOf m.1))

def build (r : Record) (place : String × Ty → Emit Unit) : Emit Unit := do
  let before ← depth
  r.pairs.forM place
  tuple r.types.length
  ensureDepth (before + 1) (r.name ++ " constructor")

def slotIn (order : List String) (m : String × Ty) : Slot :=
  if isMapping m.2 then .empty m.2 else .argument (order.idxOf m.1) m.2

theorem fillAllPlaces (r : Record) (order : List String) (produce : Nat → Ty → Emit Unit)
    (members : List (String × Ty)) :
    r.fillAll produce (members.map (slotIn order)) = members.forM (r.place order produce) := by
  induction members with
  | nil => rfl
  | cons m rest ih =>
    have own : r.fill produce (slotIn order m) = r.place order produce m := by
      unfold slotIn place
      split <;> rfl
    rw [List.map_cons, fillAll, own, ih]
    rfl

theorem slotsBuild {r : Record} {given : Option (List String)} {order : List String}
    (slots : r.slots given = r.pairs.map (slotIn order)) (produce : Nat → Ty → Emit Unit) :
    r.construct given produce = r.build (r.place order produce) := by
  rw [construct, build, slots]
  simp only [fillAllPlaces]

theorem namedSlots {members : List (String × Ty)} {given : List String}
    (asked : ∀ m ∈ members, m.1 ∈ given ↔ isMapping m.2 = false) :
    members.map (fun m => namedSlot given m.1 m.2) = members.map (slotIn given) := by
  refine List.map_congr_left fun m inside => ?_
  have own := asked m inside
  unfold namedSlot slotIn
  by_cases mapping : isMapping m.2 = true
  · have absent : given.findIdx? (· == m.1) = none := by
      refine List.findIdx?_eq_none_iff.2 fun name mem => ?_
      rw [beq_eq_false_iff_ne]
      rintro rfl
      rw [own.1 mem] at mapping
      cases mapping
    simp [absent, mapping]
  · have found : given.findIdx? (· == m.1) = some (given.idxOf m.1) :=
      List.findIdx?_eq_some_of_exists ⟨m.1, own.2 (by simpa using mapping), by simp⟩
    simp [found, mapping]

theorem slotsPaired (r : Record) (given : List String) :
    r.slots (some given) = r.pairs.map fun m => namedSlot given m.1 m.2 := by
  rw [pairs, List.map_zip_eq_zipWith]
  rfl

section
variable {r : Record} (count : r.names.length = r.types.length) (distinct : r.names.Nodup)
include count

theorem pairNames : r.pairs.map Prod.fst = r.names := by
  rw [pairs, List.map_fst_zip count.le]

theorem pairTypes : r.pairs.map Prod.snd = r.types := by
  rw [pairs, List.map_snd_zip count.ge]

include distinct

theorem askedDistinct : (askedNames r.pairs).Nodup := by
  have names : (askedNames r.pairs).Sublist r.names := by
    rw [← pairNames count]
    exact List.filter_sublist.map Prod.fst
  exact names.nodup distinct

theorem memAsked {m : String × Ty} (inside : m ∈ r.pairs) : m.1 ∈ askedNames r.pairs ↔ isMapping m.2 = false := by
  unfold askedNames
  constructor
  · intro asked
    obtain ⟨other, mem, same⟩ := List.mem_map.1 asked
    obtain ⟨pair, plain⟩ := List.mem_filter.1 mem
    have once : (r.pairs.map Prod.fst).Nodup := by rwa [pairNames count]
    cases List.inj_on_of_nodup_map once pair inside same
    simpa using plain
  · intro plain
    exact List.mem_map.2 ⟨m, List.mem_filter.2 ⟨inside, by simp [plain]⟩, rfl⟩

end

end Record

namespace Machine

def LeadsAt (limits : Capacity) (root : Cell) (code : List Instr) (before after : List Value) : Prop :=
  ∀ n, ∃ n', run code ⟨before, root, limits, n⟩ = .ok () ⟨after, root, limits, n'⟩

theorem LeadsAt.append {limits : Capacity} {root : Cell} {a b : List Instr} {s s' s'' : List Value}
    (first : LeadsAt limits root a s s') (second : LeadsAt limits root b s' s'') :
    LeadsAt limits root (a ++ b) s s'' := by
  intro n
  obtain ⟨k, one⟩ := first n
  obtain ⟨l, two⟩ := second k
  exact ⟨l, by rw [runAppend, bindOfOk one, two]⟩

end Machine

namespace Emit

/- An emission that began at depth `base` over the stack `rest` puts a value above what it pushed since. -/
def Delivers (target : Target) (base : Int) (limits : Capacity) (root : Cell) (rest : List Value) (x : Emit Unit)
    (v : Value) : Prop :=
  ∀ (e : Emitter) (above : List Value), e.target = target → e.depth = base + above.length →
    ∃ code, x e = .ok ((), e.write code (e.depth + 1)) ∧ LeadsAt limits root code (above ++ rest) (v :: above ++ rest)

variable {target : Target} {base : Int} {limits : Capacity} {root : Cell} {rest : List Value}

theorem thenOk {x : Emit Unit} {f : Unit → Emit Unit} {e e' : Emitter} (ok : x e = .ok ((), e')) :
    (x >>= f) e = f () e' := by
  change (x e >>= fun p => f p.1 p.2) = _
  rw [ok]
  rfl

theorem Delivers.ofCompletes {x : Emit Unit} {v : Value} (low : 0 ≤ base)
    (completes : ∀ d : Int, 0 ≤ d → Completes target d x fun _ d' => d' = d + 1)
    (writes : Writes target x fun _ _ code _ => ∀ s, LeadsAt limits root code s (v :: s)) :
    Delivers target base limits root rest x v := by
  intro e above same here
  obtain ⟨_, code, _, ok, rfl, leads⟩ := (completes e.depth (by omega)).known writes same rfl
  exact ⟨code, ok, leads _⟩

theorem mappingForm {t : Ty} (mapping : Record.isMapping t = true) : ∃ key value, t = .mapping key value := by
  cases t <;> cases mapping
  exact ⟨_, _, rfl⟩

theorem emptyCompletes {t : Ty} (mapping : Record.isMapping t = true) {d : Int} (low : 0 ≤ d) :
    Completes target d (pushDefault t) fun _ d' => d' = d + 1 := by
  obtain ⟨key, value, rfl⟩ := mappingForm mapping
  exact (defaultsComplete target).1 _ d rfl (by simp [Ty.widest, maxTupleSize]) low

end Emit

namespace Record

end Record

end CellChain
