import CellChain.Code.Record
/-! Scripts: the operations of the emitter as data, so that a whole run of them can be written down. -/
namespace CellChain

inductive Argument where
  | int (value : Word)
  | default
  | nothing
  deriving Repr

inductive RecordAction where
  | count
  | default (asBuilder : Bool)
  | construct (given : Option (List String)) (arguments : List Argument)
  | get (name : String)
  | set (name : String)
  | toBuilder
  | ofSlice
  deriving Repr

inductive Operation where
  | pushInt (value : Word)
  | pushSmall (value : Int)
  | pushNull
  | pushDefault (type : Ty)
  | drop
  | nip
  | swap
  | rot
  | rotRev
  | reverse (count offset : Int)
  | blockSwap (below above : Int)
  | tuple (size : Int)
  | untuple (size : Int)
  | index (slot : Int)
  | setIndex (slot : Int)
  | pair
  | unpair
  | newBuilder
  | endBuilder
  | toSlice
  | endSlice
  | pushRoot
  | popRoot
  | startContinuation
  | callRef (arguments results : Int)
  | ensureDepth (expected : Int) (construct : String)
  | instr (i : Instr)
  | storeValues (types : List Ty) (offset : Int) (positionTypes : List Ty)
  | loadValues (types : List Ty) (offset : Int) (positionTypes : List Ty)
  | storeDictValue (type : Ty) (key : Int)
  | loadDictValue (type : Ty) (key : Int)
  | record (name : String) (names : List String) (types : List Ty) (action : RecordAction)
  deriving Repr

namespace Operation

def produce (arguments : List Argument) (k : Nat) (t : Ty) : Emit Unit :=
  match arguments[k]? with
  | some (.int x) => Emit.pushInt x
  | some .nothing => pure ()
  | some .default | none => Emit.pushDefault t

def act (r : Record) : RecordAction → Emit Unit
  | .count => pure ()
  | .default asBuilder => r.default asBuilder
  | .construct given arguments => r.construct given (produce arguments)
  | .get name => r.get name
  | .set name => r.set name
  | .toBuilder => r.toBuilder
  | .ofSlice => r.ofSlice

def run : Operation → Emit Unit
  | .pushInt x => Emit.pushInt x
  | .pushSmall n => Emit.pushSmall n
  | .pushNull => Emit.op .null
  | .pushDefault t => Emit.pushDefault t
  | .drop => Emit.drop
  | .nip => Emit.nip
  | .swap => Emit.swap
  | .rot => Emit.rot
  | .rotRev => Emit.rotRev
  | .reverse n i => Emit.reverse n i
  | .blockSwap i j => Emit.blockSwap i j
  | .tuple n => Emit.tuple n
  | .untuple n => Emit.untuple n
  | .index k => Emit.index k
  | .setIndex k => Emit.setIndex k
  | .pair => Emit.pair
  | .unpair => Emit.unpair
  | .newBuilder => Emit.newBuilder
  | .endBuilder => Emit.endBuilder
  | .toSlice => Emit.toSlice
  | .endSlice => Emit.endSlice
  | .pushRoot => Emit.pushRoot
  | .popRoot => Emit.popRoot
  | .startContinuation => Emit.startContinuation
  | .callRef a r => Emit.callRef a r
  | .ensureDepth n construct => Emit.ensureDepth n construct
  | .instr i => Emit.instr i
  | .storeValues types offset positionTypes => do
    let p ← Emit.lift (Position.ofTypes (← Emit.target) offset positionTypes)
    let _ ← Emit.storeValues types p
  | .loadValues types offset positionTypes => do
    let p ← Emit.lift (Position.ofTypes (← Emit.target) offset positionTypes)
    let _ ← Emit.loadValues types p
  | .storeDictValue t key => Emit.storeDictValue t key
  | .loadDictValue t key => Emit.loadDictValue t key
  | .record name names types action => do act (← Emit.lift (Record.ofMembers name names types)) action

def runAll : List Operation → Emit Unit
  | [] => pure ()
  | o :: rest => do
    o.run
    runAll rest

end Operation

end CellChain
