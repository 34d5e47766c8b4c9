import CellChain.Yaml.Token
/-! Contract descriptions as they are written in files: names and type expressions are still text. -/
namespace CellChain

open Yaml (Mark)

structure TextEntry where
  text : String
  mark : Mark
  deriving Repr

structure VariableEntry where
  name : String := ""
  type : String := ""
  mark : Mark := ⟨0, 0⟩
  deriving Repr

structure StructEntry where
  name : String := ""
  members : List VariableEntry := []
  mark : Mark := ⟨0, 0⟩
  deriving Repr

structure FunctionEntry where
  name : String := ""
  kind : String := ""
  visibility : String := ""
  mutability : String := ""
  inline : Bool := false
  overriding : Bool := false
  id : Option UInt32 := none
  params : List VariableEntry := []
  returns : List VariableEntry := []
  mark : Mark := ⟨0, 0⟩
  deriving Repr

structure ContractEntry where
  name : String := ""
  bases : List String := []
  structs : List StructEntry := []
  state : List VariableEntry := []
  functions : List FunctionEntry := []
  mark : Mark := ⟨0, 0⟩
  deriving Repr

structure Description where
  imports : List TextEntry := []
  pragmas : List TextEntry := []
  contracts : List ContractEntry := []
  deriving Repr

end CellChain
