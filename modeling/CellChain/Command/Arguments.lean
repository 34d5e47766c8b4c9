import CellChain.Text.Quoted
/-! The words of a command line. Options come before other words, with one dash or two, and a value follows
after an equals sign or as the next word. -/
namespace CellChain.Command

structure Flag where
  name : String
  isSwitch : Bool
  deriving DecidableEq, Repr

inductive UsageError where
  | malformed (word : String)
  | undefined (name : String)
  | noValue (name : String)
  | noTruth (name value : String)
  | twoForms (name other : String)
  | noTopic (name : String)
  deriving DecidableEq, Repr

def UsageError.message : UsageError → String
  | .malformed word => "bad flag syntax: " ++ word
  | .undefined name => "flag provided but not defined: -" ++ name
  | .noValue name => "flag needs an argument: -" ++ name
  | .noTruth name value =>
    "invalid boolean value " ++ Text.quote value ++ " for -" ++ name ++ ": parse error"
  | .twoForms name other => "Cannot use two forms of the same flag: " ++ other ++ " " ++ name
  | .noTopic name => "No help topic for '" ++ name ++ "'"

def switchWords : List (String × Bool) :=
  [("1", true), ("t", true), ("T", true), ("TRUE", true), ("true", true), ("True", true),
   ("0", false), ("f", false), ("F", false), ("FALSE", false), ("false", false), ("False", false)]

structure Parsed where
  values : List (String × String)
  rest : List String
  deriving Repr

namespace Parsed

def text (p : Parsed) (name default : String) : String := (p.values.lookup name).getD default

def isOn (p : Parsed) (name : String) : Bool :=
  ((p.values.lookup name).bind fun v => switchWords.lookup v).getD false

end Parsed

def splitOption (body : List Char) : String × Option String :=
  match body.dropWhile (· != '=') with
  | [] => (String.ofList body, none)
  | _ :: value => (String.ofList (body.takeWhile (· != '=')), some (String.ofList value))

inductive Word where
  | option (body : List Char)
  | endOfOptions
  | other

def Word.of (word : String) : Word :=
  match word.toList with
  | ['-', '-'] => .endOfOptions
  | '-' :: '-' :: body => .option body
  | '-' :: c :: body => .option (c :: body)
  | _ => .other

def parseOptions (flags : List Flag) : List String → List (String × String) → Except UsageError Parsed
  | [], values => .ok ⟨values, []⟩
  | word :: rest, values =>
    match Word.of word with
    | .other => .ok ⟨values, word :: rest⟩
    | .endOfOptions => .ok ⟨values, rest⟩
    | .option body =>
      if body.head? == some '-' || body.head? == some '=' then .error (.malformed word)
      else
        let (name, value) := splitOption body
        match flags.find? (·.name == name), value with
        | none, _ => .error (.undefined name)
        | some f, some v =>
          if f.isSwitch && (switchWords.lookup v).isNone then .error (.noTruth name v)
          else parseOptions flags rest ((name, v) :: values)
        | some f, none =>
          if f.isSwitch then parseOptions flags rest ((name, "true") :: values)
          else
            match rest with
            | v :: rest => parseOptions flags rest ((name, v) :: values)
            | [] => .error (.noValue name)

def forms : List (String × String) := [("help", "h"), ("version", "v")]

def options (flags : List Flag) (words : List String) : Except UsageError Parsed := do
  let p ← parseOptions flags words []
  let given (name : String) : Bool := (p.values.lookup name).isSome
  match forms.find? fun (name, other) => given name && given other with
  | some (name, other) => .error (.twoForms name other)
  | none => .ok p

inductive Action where
  | check (contract : String)
  | build (contract directory : String)
  | layout (contract function : String)
  | config
  | version
  | help
  deriving DecidableEq, Repr

structure Request where
  settings : String
  debug : Bool
  action : Action
  words : List String
  deriving DecidableEq, Repr

def helpFlags : List Flag := [⟨"help", true⟩, ⟨"h", true⟩]

def globalFlags : List Flag :=
  [⟨"config", false⟩, ⟨"debug", true⟩, ⟨"version", true⟩, ⟨"v", true⟩] ++ helpFlags

def commands : List (String × List Flag × (Parsed → Action)) :=
  [("check", [⟨"contract", false⟩], fun p => .check (p.text "contract" "")),
   ("build", [⟨"contract", false⟩, ⟨"out", false⟩],
    fun p => .build (p.text "contract" "") (p.text "out" "build")),
   ("layout", [⟨"contract", false⟩, ⟨"function", false⟩],
    fun p => .layout (p.text "contract" "") (p.text "function" "")),
   ("config", [], fun _ => .config)]

def wantsHelp (p : Parsed) : Bool := p.isOn "help" || p.isOn "h"

def helpWords : List String := ["help", "h"]

def topics : List String := commands.map Prod.fst ++ helpWords

def helpOn (topics : List String) : List String → Except UsageError Action
  | [] => .ok .help
  | name :: _ => if name = "" ∨ topics.contains name then .ok .help else .error (.noTopic name)

def helpSteps : Nat → List String → List String → Except UsageError Action
  | 0, topics, words => helpOn topics words
  | n + 1, topics, words => do
    let p ← options helpFlags words
    match p.rest with
    | name :: rest =>
      if !wantsHelp p && helpWords.contains name then helpSteps n helpWords rest else helpOn topics p.rest
    | [] => .ok .help

def help (topics words : List String) : Except UsageError Action := helpSteps words.length topics words

def parseCommand (flags : List Flag) (action : Parsed → Action) (words : List String) :
    Except UsageError (Action × List String) := do
  let p ← options (flags ++ helpFlags) words
  if wantsHelp p then .ok (← helpOn helpWords p.rest, [])
  else
    match p.rest with
    | name :: rest => if helpWords.contains name then .ok (← help helpWords rest, []) else .ok (action p, p.rest)
    | [] => .ok (action p, [])

def parse (words : List String) : Except UsageError Request := do
  let global ← options globalFlags words
  let (action, rest) ←
    if wantsHelp global then do .ok (← helpOn topics global.rest, [])
    else if global.isOn "version" || global.isOn "v" then .ok (.version, [])
    else
      match global.rest with
      | [] => .ok (.help, [])
      | name :: rest =>
        match commands.lookup name with
        | some (flags, action) => parseCommand flags action rest
        | none =>
          if helpWords.contains name then do .ok (← help topics rest, [])
          else do .ok (← helpOn topics [name], [])
  .ok ⟨global.text "config" "", global.isOn "debug", action, rest⟩

end CellChain.Command
