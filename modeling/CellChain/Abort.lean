import CellChain.Ty.Basic
import CellChain.Text.Notice
import CellChain.Text.Quoted
/-! Aborts of a compilation: an invariant of the backend did not hold. They are never a diagnostic for
the author of a contract; an earlier stage let something through, or the backend miscounted. -/
namespace CellChain

open Text (Phrase quote)

inductive Abort.Cause where
  | offsetOutside (offset bits : Int)
  | noWireEncoding
  | overfull (bits refs : Int)
  | noLeafLeft
  | depthMismatch (depth expected : Int)
  | underflow (depth pops : Int)
  | noStackEffect
  | openContinuations (count : Nat)
  | noContinuation
  | tooFewArguments (wanted present : Int)
  | noDefault
  | reversing (count : Int)
  | tupleOperand (operand : Int)
  | missingValues (values : Nat) (depth : Int)
  | leavesUnplaced
  | valuesUnstored (count : Int)
  | noSlice
  | leavesUnread
  | spilled (cells : Int)
  | notOneCell (key : Int)
  | cannotEncode (category : Category)
  | cannotDecode (category : Category)
  | memberCount (names types : Nat)
  | duplicateMember (name : String)
  | noMember (name : String)
  | mappingNamed (name : String)
  | memberNotNamed (name : String)
  | deployParameters (needed present : Nat)
  | stated (text : String)
  | ordinary (text : String)
  deriving DecidableEq, Repr

structure Abort where
  construct : String
  cause : Abort.Cause
  deriving DecidableEq, Repr

namespace Abort

def Cause.phrases : Cause → List Phrase
  | .offsetOutside offset bits =>
    [.own ("offset " ++ toString offset ++ " outside a cell of " ++ toString bits ++ " bits")]
  | .noWireEncoding => [.own "type has no wire encoding"]
  | .overfull bits refs =>
    [.own (toString bits ++ " bits and " ++ toString refs ++ " refs exceed an empty cell")]
  | .noLeafLeft => [.own "no leaf left to place"]
  | .depthMismatch depth expected =>
    [.own ("stack depth " ++ toString depth ++ ", expected " ++ toString expected)]
  | .underflow depth pops =>
    [.own ("stack underflow: depth " ++ toString depth ++ ", instruction pops " ++ toString pops)]
  | .noStackEffect => [.own "no declared stack effect"]
  | .openContinuations count => [.own (toString count ++ " continuation(s) left open")]
  | .noContinuation => [.own "no open continuation"]
  | .tooFewArguments wanted present =>
    [.own ("continuation takes " ++ toString wanted ++ " argument(s), only " ++ toString present ++
      " on the stack")]
  | .noDefault => [.own "type has no default value"]
  | .reversing count => [.own ("reversing " ++ toString count ++ " entries")]
  | .tupleOperand operand => [.own ("tuple operand " ++ toString operand ++ " out of range")]
  | .missingValues values depth =>
    [.own (toString values ++ " value(s) and a builder expected, depth " ++ toString depth)]
  | .leavesUnplaced => [.own "leaves left unplaced"]
  | .valuesUnstored count => [.own (toString count ++ " value(s) left unstored")]
  | .noSlice => [.own "no slice on the stack"]
  | .leavesUnread => [.own "leaves left unread"]
  | .spilled cells => [.own ("mapping value spilled into " ++ toString cells ++ " cells")]
  | .notOneCell key => [.own ("struct is not one-cell compatible under a " ++ toString key ++ "-bit key")]
  | .cannotEncode category => [.own ("cannot encode " ++ category.name ++ " value")]
  | .cannotDecode category => [.own ("cannot decode " ++ category.name ++ " value")]
  | .memberCount names types =>
    [.own (toString names ++ " member names for " ++ toString types ++ " member types")]
  | .duplicateMember name => [.own "duplicate member ", .repeated (quote name)]
  | .noMember name => [.own "no member named ", .repeated (quote name)]
  | .mappingNamed name => [.own "mapping member ", .repeated (quote name), .own " given by name"]
  | .memberNotNamed name => [.own "member ", .repeated (quote name), .own " not given by name"]
  | .deployParameters needed present =>
    [.own ("expected at least " ++ toString needed ++ " parameters, got " ++ toString present)]
  | .stated text => [.repeated text]
  | .ordinary text => [.own text]

def message (a : Abort) : String :=
  "internal compiler error in " ++ a.construct ++ ": " ++ Text.compact a.cause.phrases

def notice (a : Abort) : Text.Notice := .foreign a.message [[.own a.message]]

def isInternal (a : Abort) : Bool :=
  match a.cause with
  | .ordinary _ => false
  | _ => true

end Abort

def require (condition : Prop) [Decidable condition] (construct : String) (cause : Abort.Cause) :
    Except Abort Unit :=
  if condition then .ok () else .error ⟨construct, cause⟩

end CellChain
