import Mathlib
import CellChain.Proofs.Outcomes
import CellChain.Proofs.StackUse
/-! What code needs, told by the declared effects of its instructions: how many entries it reaches down to, how it
changes their number, and which calls it makes. A call needs what its body needs, whatever arguments it declares. -/
namespace CellChain

open Machine (Uses run step)

def Instr.net : Instr → Int
  | .callRef arguments results _ => results - arguments
  | i => (i.effect?.map fun effect => effect.2 - effect.1).getD 0

mutual
def Instr.need : Instr → Int
  | .callRef _ _ body => needOf body
  | i => (i.effect?.map Prod.fst).getD 0

/- The entries that code reaches down to from where it begins. -/
def needOf : List Instr → Int
  | [] => 0
  | i :: rest => max (max 0 i.need) (needOf rest - i.net)
end

def netOf (code : List Instr) : Int := (code.map Instr.net).sum

structure Call where
  arguments : Int
  results : Int
  body : List Instr

mutual
def Instr.calls : Instr → List Call
  | .callRef arguments results body => ⟨arguments, results, body⟩ :: callsOf body
  | _ => []

def callsOf : List Instr → List Call
  | [] => []
  | i :: rest => i.calls ++ callsOf rest
end

theorem Instr.ofEffect {i : Instr} {pops pushes : Int} (effect : i.effect? = some (pops, pushes)) :
    i.need = pops ∧ i.net = pushes - pops := by
  cases i with
  | callRef => cases effect
  | pushInt | simple => simp [need, net, effect]

@[simp] theorem Instr.needPush (x : Word) : (pushInt x).need = 0 := by simp [need, effect?]

@[simp] theorem Instr.netPush (x : Word) : (pushInt x).net = 1 := rfl

@[simp] theorem netNil : netOf [] = 0 := rfl

@[simp] theorem netAppend (a b : List Instr) : netOf (a ++ b) = netOf a + netOf b := by
  simp [netOf]

@[simp] theorem netCons (i : Instr) (rest : List Instr) : netOf (i :: rest) = i.net + netOf rest := by
  simp [netOf]

theorem needNonneg (code : List Instr) : 0 ≤ needOf code := by
  cases code with
  | nil => simp [needOf]
  | cons i rest =>
    simp only [needOf]
    omega

theorem needCoversNet (code : List Instr) : 0 ≤ needOf code + netOf code := by
  induction code with
  | nil => simp [needOf]
  | cons i rest ih =>
    simp only [needOf, netCons]
    omega

theorem needAppend (a b : List Instr) : needOf (a ++ b) = max (needOf a) (needOf b - netOf a) := by
  induction a with
  | nil =>
    have low := needNonneg b
    simp only [List.nil_append, needOf, netNil]
    omega
  | cons i rest ih =>
    simp only [List.cons_append, needOf, netCons, ih]
    omega

@[simp] theorem callsAppend (a b : List Instr) : callsOf (a ++ b) = callsOf a ++ callsOf b := by
  induction a with
  | nil => simp [callsOf]
  | cons i rest ih => simp [callsOf, ih]

def AsDeclared (code : List Instr) : Prop := Uses (WordSized code) (needOf code) (netOf code) (run code)

theorem AsDeclared.nil : AsDeclared [] := .runNil

theorem AsDeclared.append {a b : List Instr} (first : AsDeclared a) (second : AsDeclared b) : AsDeclared (a ++ b) :=
  Uses.runAppend (first.imp fun h => h.ofAppend.1) (second.imp fun h => h.ofAppend.2) (needAppend a b) (netAppend a b)

structure Call.Honest (c : Call) : Prop where
  net : netOf c.body = c.results - c.arguments
  works : AsDeclared c.body

end CellChain
