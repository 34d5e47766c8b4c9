import CellChain.Contract.Diagnostic
import CellChain.Layout.Position
import CellChain.Settings.Basic
/-! The validator: the rules a contract must keep before code is emitted for it. The rules report and go
on, so that one run shows everything; only a malformed deploy intrinsic ends the run. -/
namespace CellChain.Check

structure Report where
  diagnostics : List Diagnostic
  abort : Option Abort

def Report.hasErrors (r : Report) : Bool := r.diagnostics.any Diagnostic.isError

def when (condition : Bool) (place : Place) (finding : Finding) : List Diagnostic :=
  if condition then [⟨place, finding⟩] else []

def inlineSuffix : List Char := "_inline".toList

def inlineFunction (f : Function) : List Diagnostic :=
  let suffixed := inlineSuffix.isSuffixOf f.name.toList
  when suffixed f.place .inlineSuffix ++
    when ((suffixed || f.inline) && f.isPublic) f.place .inlineVisibility

def encodable (v : Variable) : List Diagnostic :=
  match v.type.unencodable? with
  | some t => [⟨v.place, .noEncoding t.text⟩]
  | none => []

/-- Keys of mappings are integers; a struct that is a dictionary value under a key of `key` bits fits one
cell. A value that is in no dictionary has key 0. -/
def dictionaries (target : Target) : Int → Ty → List Finding
  | _, .mapping key value =>
    (if key.keyWidth?.isNone then [.mappingKey] else []) ++ dictionaries target (key.keyWidth?.getD 0) value
  | _, .array element => dictionaries target target.arrayKey element
  | key, .struct _ _ types => if 0 < key ∧ !Ty.membersFitDict target key types then [.structNotOneCell] else []
  | _, _ => []

def parameter (target : Target) (v : Variable) : List Diagnostic :=
  encodable v ++ (dictionaries target 0 v.type).map (⟨v.place, ·⟩)

def parameters (target : Target) (f : Function) : List Diagnostic :=
  if f.isPublic then (f.params ++ f.returns).flatMap (parameter target) else []

def deployConstructorSlot : Nat := 3

def isCell : Ty → Bool
  | .cell => true
  | _ => false

def deployArguments (settings : Settings) (f : Function) : Except Abort (List Diagnostic) :=
  if f.name ≠ settings.deploy then .ok []
  else
    match f.params[deployConstructorSlot]? with
    | none => .error ⟨f.name, .deployParameters (deployConstructorSlot + 1) f.params.length⟩
    | some p => .ok (when (!isCell p.type && !p.type.isUint32) p.place .constructorId)

def intrinsicRules (settings : Settings) (contract : String) (f : Function) : List Diagnostic :=
  when (f.visibility ≠ .priv) f.place .intrinsicVisible ++
  (match settings.replacement? f.name with
    | some replacement => [⟨f.place, .intrinsicDeprecated replacement⟩]
    | none => []) ++
  when (contract ≠ settings.stdlib && settings.internal.contains f.name) f.place .intrinsicInternal ++
  if settings.storageMutating.contains f.name then
    when (f.mutability ≠ .nonpayable) f.place .shouldBeNonpayable
  else when (f.mutability ≠ .pure) f.place .shouldBePure

def intrinsics (settings : Settings) (contract : String) : List Function → Report
  | [] => ⟨[], none⟩
  | f :: rest =>
    if settings.isIntrinsic f.name then
      let rules := intrinsicRules settings contract f
      match deployArguments settings f with
      | .error a => ⟨rules, some a⟩
      | .ok more =>
        let others := intrinsics settings contract rest
        ⟨rules ++ more ++ others.diagnostics, others.abort⟩
    else intrinsics settings contract rest

def stateVariables : List String → List Variable → List Diagnostic
  | _, [] => []
  | used, v :: rest =>
    when (used.contains v.name) v.place .duplicateVariable ++ encodable v ++ stateVariables (v.name :: used) rest

def refs (c : Contract) : List (FunctionRef × Function) :=
  c.functions.zipIdx.map fun (f, k) => (⟨c.name, k⟩, f)

def ordinary (settings : Settings) (chain : List Contract) : List (FunctionRef × Function) :=
  (chain.flatMap refs).filter fun (_, f) => f.kind = .function && !settings.isIntrinsic f.name

def overrideIds (u : SourceUnit) (f : Function) : List Diagnostic :=
  f.overrides.flatMap fun r =>
    match u.function? r with
    | some base => when (f.id ≠ base.id) f.place (.overrideId base.id)
    | none => []

def overridden (functions : List (FunctionRef × Function)) : List FunctionRef :=
  functions.flatMap fun (r, f) => if f.overrides.isEmpty then [] else r :: f.overrides

def overloads : List Function → List Function → List Diagnostic
  | _, [] => []
  | earlier, f :: rest =>
    (earlier.filter (·.name == f.name)).map (fun _ => ⟨f.place, .overloading⟩) ++ overloads (earlier ++ [f]) rest

def overriding (settings : Settings) (u : SourceUnit) (c : Contract) : List Diagnostic :=
  let functions := ordinary settings (u.baseFirst c)
  let linked := overridden functions
  functions.flatMap (fun (_, f) => overrideIds u f) ++
    overloads [] ((functions.filter fun (r, _) => !linked.contains r).map Prod.snd)

def abiVersion (settings : Settings) (pragmas : List Pragma) : Int :=
  (pragmaVersion? pragmas).getD settings.defaultVersion

def headers (settings : Settings) (pragmas : List Pragma) : List Diagnostic :=
  if abiVersion settings pragmas = 1 then
    ["expire", "time", "pubkey"].flatMap fun header =>
      match pragmas.find? (·.tokens == ["AbiHeader", header]) with
      | some p => [⟨p.place, .headerVersion⟩]
      | none => []
  else []

def afterSignature (f : Function) : List Diagnostic :=
  if f.name = "afterSignatureCheck" then
    when (f.params.length ≠ 2) f.place .afterSignature ++
    when (f.returns.length ≠ 1) f.place .afterSignature ++
    when f.isPublic f.place .afterSignature ++
    when (!f.inline) f.place .afterSignature
  else []

def codeUpgrade (f : Function) : List Diagnostic :=
  if f.name = "onCodeUpgrade" then
    (match f.returns with
      | r :: _ => [⟨r.place, .codeUpgrade⟩]
      | [] => []) ++
    when f.isPublic f.place .codeUpgrade
  else []

def run (settings : Settings) (u : SourceUnit) (c : Contract) : Report :=
  let before := c.functions.flatMap inlineFunction ++ c.functions.flatMap (parameters settings.vm)
  let low := intrinsics settings c.name c.functions
  match low.abort with
  | some a => ⟨before ++ low.diagnostics, some a⟩
  | none =>
    ⟨before ++ low.diagnostics ++
      stateVariables [] ((u.baseFirst c).flatMap Contract.state) ++
      overriding settings u c ++
      (if c.name = settings.stdlib then []
        else headers settings u.pragmas ++ c.functions.flatMap afterSignature) ++
      c.functions.flatMap codeUpgrade, none⟩

end CellChain.Check
