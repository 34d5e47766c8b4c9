import Mathlib
import CellChain.Proofs.Emission
/-! Structs and tuples alike: a type is a group of member types, or it is one value to the codec. What is
emitted for a type, and what its leaves are, depends on this alone. -/
namespace CellChain

namespace Ty

def parts? : Ty → Option (List Ty)
  | .struct _ _ types | .tuple types => some types
  | _ => none

theorem groupInduction {P : Ty → Prop} {Q : List Ty → Prop}
    (single : ∀ t, t.parts? = none → P t) (group : ∀ t types, t.parts? = some types → Q types → P t)
    (nil : Q []) (cons : ∀ t rest, P t → Q rest → Q (t :: rest)) : (∀ t, P t) ∧ ∀ types, Q types := by
  have each : ∀ t, P t := fun t =>
    @Ty.rec String P Q (fun _ _ => single _ rfl) (single _ rfl)
      (fun _ _ _ _ => single _ rfl) (fun _ _ => single _ rfl) (fun _ => single _ rfl)
      (fun _ _ _ members => group _ _ rfl members) (fun _ => single _ rfl)
      (fun _ members => group _ _ rfl members) (single _ rfl) (single _ rfl) (fun _ => single _ rfl)
      nil cons t
  refine ⟨each, fun types => ?_⟩
  induction types with
  | nil => exact nil
  | cons t rest ih => exact cons t rest (each t) ih

end Ty

namespace Emit

namespace Store

theorem valueGroup {t : Ty} {types : List Ty} (group : t.parts? = some types) (s : State) :
    value t s = (do
      expand types.length
      values types { s with pending := s.pending + (types.length - 1) }) := by
  cases t <;> cases group <;> simp only [value]

theorem valueSingle {t : Ty} (single : t.parts? = none) (s : State) :
    value t s = lift s.position.next >>= fun p =>
      (if p.1 then breakCell s.pending else pure ()) >>= fun _ =>
      leaf t >>= fun _ =>
      pure ⟨p.2, s.pending - 1, if p.1 then s.builders + 1 else s.builders⟩ := by
  have opened : value t s = lift s.position.next >>= fun p =>
      if p.1 then do breakCell s.pending; leaf t; pure ⟨p.2, s.pending - 1, if p.1 then s.builders + 1 else s.builders⟩
      else (do leaf t; pure ⟨p.2, s.pending - 1, if p.1 then s.builders + 1 else s.builders⟩) := by
    cases t <;> cases single <;> simp only [value]
  rw [opened]
  congr 1
  funext p
  cases p.1 <;> simp

end Store

namespace Load

theorem valueGroup {t : Ty} {types : List Ty} (group : t.parts? = some types) (p : Position) :
    value t p = (do
      let q ← values types p
      Load.group types.length
      pure q) := by
  cases t <;> cases group <;> simp only [value]

theorem valueSingle {t : Ty} (single : t.parts? = none) (p : Position) :
    value t p = lift p.next >>= fun q =>
      (if q.1 then followLink else pure ()) >>= fun _ =>
      leaf t >>= fun _ =>
      pure q.2 := by
  have opened : value t p = lift p.next >>= fun q =>
      if q.1 then do followLink; leaf t; pure q.2 else (do leaf t; pure q.2) := by
    cases t <;> cases single <;> simp only [value]
  rw [opened]
  congr 1
  funext q
  cases q.1 <;> simp

end Load

end Emit

namespace Record

open Emit

def conversion (r : Record) (target : Target) : Emit Position := do
  untuple r.types.length
  arrange r.types.length
  newBuilder
  let p ← lift (Position.start target 0 r.names r.types target.cell)
  storeValues r.types p

theorem toBuilderConversion (r : Record) : r.toBuilder = (do
    let before ← depth
    let target ← Emit.target
    called 1 1 (r.conversion target)
    ensureDepth before (r.name ++ " to builder")) := by
  simp only [toBuilder, conversion, called, arrange, bind_assoc]
  congr 1; funext before; congr 1; funext target; congr 1; funext _; congr 1; funext _
  split <;> simp

end Record

end CellChain
