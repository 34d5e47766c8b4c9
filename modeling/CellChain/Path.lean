/-! File paths as text: their shortest equal form, joining, and the directory part. Nothing is looked up. -/
namespace CellChain.Path

def splitChars : List Char → List Char → List String
  | current, [] => [String.ofList current.reverse]
  | current, '/' :: rest => String.ofList current.reverse :: splitChars [] rest
  | current, c :: rest => splitChars (c :: current) rest

def parts (path : String) : List String := splitChars [] path.toList

def isRooted (path : String) : Bool := path.toList.head? == some '/'

/- Parts kept so far, the last one first. A step up removes the last part, unless that is a step up too. -/
def pushPart (rooted : Bool) (kept : List String) (part : String) : List String :=
  if part = "" ∨ part = "." then kept
  else if part = ".." then
    match kept with
    | [] => if rooted then [] else [".."]
    | last :: rest => if last = ".." then ".." :: kept else rest
  else part :: kept

def cleanParts (rooted : Bool) (parts : List String) : List String :=
  (parts.foldl (pushPart rooted) []).reverse

def clean (path : String) : String :=
  let kept := String.intercalate "/" (cleanParts (isRooted path) (parts path))
  if isRooted path then "/" ++ kept else if kept = "" then "." else kept

def steps (path : String) : List String :=
  let kept := cleanParts (isRooted path) (parts path)
  (List.range kept.length).map fun n =>
    (if isRooted path then "/" else "") ++ String.intercalate "/" (kept.take (n + 1))

def join (base path : String) : String :=
  if base = "" then (if path = "" then "" else clean path) else clean (base ++ "/" ++ path)

def dir (path : String) : String :=
  clean (String.ofList (path.toList.reverse.dropWhile (· != '/')).reverse)

end CellChain.Path
