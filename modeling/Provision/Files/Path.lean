/-!
# Paths

Paths are texts whose parts are divided by slashes. Empty parts and `.` count for nothing, except
that a leading `.` is a part of its own.
-/

namespace Provision.Files

def join (root path : String) : String :=
  match root.toList, path.toList with
  | _, '/' :: _ => path
  | [], _ => path
  | _, _ => if root.toList.getLast? == some '/' then root ++ path else root ++ "/" ++ path

def isAbsolute (path : String) : Bool := path.toList.head? == some '/'

def segments (path : String) : List String := (path.toList.splitOn '/').map String.ofList

def segmentEnds (start : Nat) : List String → List (String × Nat)
  | [] => []
  | segment :: rest =>
    (segment, start + segment.length) :: segmentEnds (start + segment.length + 1) rest

def parts (path : String) : List (String × Nat) :=
  match segmentEnds 0 (segments path) with
  | [] => []
  | first :: rest =>
    let isPart : String × Nat → Bool := fun (segment, _) => segment != "" && segment != "."
    (if first.1 == "" then [] else [first]) ++ rest.filter isPart

def parent? (path : String) : Option String :=
  match (parts path).reverse with
  | [] => none
  | [_] => some (if isAbsolute path then "/" else "")
  | _ :: (_, stop) :: _ => some (String.ofList (path.toList.take stop))

def fileName? (path : String) : Option String :=
  match (parts path).getLast? with
  | some (name, _) => if name == "." || name == ".." then none else some name
  | none => none

/-- A name without what follows its last dot; a dot at the front belongs to the name. -/
def stem (name : String) : String :=
  match name.toList.reverse.dropWhile (· != '.') with
  | [] | [_] => name
  | _ :: before => String.ofList before.reverse

end Provision.Files
