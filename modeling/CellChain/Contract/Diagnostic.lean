import CellChain.Contract.Basic
/-! Findings of the validator. Each is a warning or an error, is told at a place, and has one wording. -/
namespace CellChain

inductive Severity where
  | error
  | warning
  deriving DecidableEq, Repr

namespace Severity

def name : Severity → String
  | .error => "error"
  | .warning => "warning"

def all : List Severity := [.error, .warning]

end Severity

inductive Finding where
  | inlineSuffix
  | inlineVisibility
  | noEncoding (type : String)
  | mappingKey
  | structNotOneCell
  | duplicateVariable
  | overloading
  | overrideId (id : UInt32)
  | intrinsicVisible
  | intrinsicDeprecated (replacement : String)
  | intrinsicInternal
  | shouldBeNonpayable
  | shouldBePure
  | constructorId
  | codeUpgrade
  | afterSignature
  | headerVersion
  deriving DecidableEq, Repr

namespace Finding

def severity : Finding → Severity
  | .inlineSuffix | .intrinsicDeprecated _ | .intrinsicInternal => .warning
  | _ => .error

def message : Finding → String
  | .inlineSuffix => "Suffix is deprecated it will be removed from compiler soon."
  | .inlineVisibility => "Inline function should have private or internal visibility"
  | .noEncoding type => "Type " ++ type ++ " has no ABI encoding."
  | .mappingKey => "Key type must be any of int<M>/uint<M> types with M from 8 to 256"
  | .structNotOneCell =>
    "Struct is not compatible with SDK. Struct must have no nested structs and all members of the struct must fit in one cell."
  | .duplicateVariable => "Duplicate member variable"
  | .overloading => "Function overloading is not supported."
  | .overrideId id => "Override function should have functionID = " ++ toString id.toNat ++ "."
  | .intrinsicVisible => "Intrinsic should have private visibility"
  | .intrinsicDeprecated replacement =>
    "Function is deprecated it will be removed from compiler soon. Use " ++ replacement ++ " instead."
  | .intrinsicInternal => "Function is internal, use at your own risk."
  | .shouldBeNonpayable => "Should have \"NonPayable\" state mutability"
  | .shouldBePure => "Should have \"pure\" state mutability"
  | .constructorId => "Constructor id argument should be of type uint32."
  | .codeUpgrade =>
    "Should have follow format: function onCodeUpgrade(...) (internal|private) \x7b /*...*/ \x7d"
  | .afterSignature =>
    "Should have follow format: function afterSignatureCheck(TvmSlice restOfMessageBody, TvmCell message) private inline returns (TvmSlice) \x7b /*...*/ \x7d"
  | .headerVersion =>
    "\"pragma AbiHeader v1\" are not compatible with \"pragma AbiHeader expire\", \"pragma AbiHeader time\" and \"pragma AbiHeader pubkey\""

end Finding

structure Diagnostic where
  place : Place
  finding : Finding
  deriving DecidableEq, Repr

namespace Diagnostic

def isError (d : Diagnostic) : Bool := d.finding.severity = .error

def text (d : Diagnostic) : String :=
  d.place.text ++ ": " ++ d.finding.severity.name ++ ": " ++ d.finding.message

end Diagnostic

end CellChain
