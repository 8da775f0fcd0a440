import Provision.Files.System

/-!
# File trees

Files and directories as a value: a model of the place where conversions run. Paths are relative
to its root and never lead out of it.
-/

namespace Provision.Files

structure Tree where
  directories : List (List String) := []
  files : List (List String × String) := []
  deriving DecidableEq, Repr

namespace Tree

def isDirectory (tree : Tree) (place : List String) : Bool :=
  place.isEmpty || tree.directories.contains place

def isFileAt (tree : Tree) (place : List String) : Bool := tree.files.any (·.1 == place)

def walk (tree : Tree) (place : List String) : List String → Option (List String)
  | [] => some place
  | segment :: rest =>
    if segment == "" then walk tree place rest
    else if !tree.isDirectory place then none
    else if segment == "." then walk tree place rest
    else if segment == ".." then if place.isEmpty then none else walk tree place.dropLast rest
    else walk tree (place ++ [segment]) rest

def namesDirectory (path : String) : Bool :=
  match (segments path).getLast? with
  | some segment => segment == "" || segment == "." || segment == ".."
  | none => true

def locate (tree : Tree) (path : String) : Option (List String) :=
  if isAbsolute path || namesDirectory path then none else walk tree [] (segments path)

def read (tree : Tree) (path : String) : Option String := do
  tree.files.lookup (← tree.locate path)

def isFile (tree : Tree) (path : String) : Bool :=
  ((tree.locate path).map tree.isFileAt).getD false

def makeAlong (tree : Tree) (place : List String) : List String → Bool × Tree
  | [] => (true, tree)
  | segment :: rest =>
    if segment == "" || segment == "." then makeAlong tree place rest
    else if segment == ".." then
      if place.isEmpty then (false, tree) else makeAlong tree place.dropLast rest
    else
      let next := place ++ [segment]
      if tree.isFileAt next then (false, tree)
      else if tree.isDirectory next then makeAlong tree next rest
      else makeAlong { tree with directories := next :: tree.directories } next rest

def makeDirectories (tree : Tree) (path : String) : Bool × Tree :=
  if isAbsolute path then (false, tree) else makeAlong tree [] (segments path)

def set (tree : Tree) (place : List String) (contents : String) : Tree :=
  { tree with files := (place, contents) :: tree.files.filter (·.1 != place) }

def put (tree : Tree) (path contents : String) : Except PutFault Unit × Tree :=
  match tree.locate path with
  | some place =>
    if tree.isDirectory place then (.error .persist, tree) else (.ok (), tree.set place contents)
  | none => (.error .persist, tree)

def listing (tree : Tree) : List (String × String) :=
  (tree.files.map fun (place, contents) => ("/".intercalate place, contents)).mergeSort
    fun left right => decide (left.1 ≤ right.1)

def withFile (tree : Tree) (path contents : String) : Tree :=
  ((tree.makeDirectories (directoryOf path)).2.put path contents).2

def system : FileSystem (StateM Tree) where
  read path := do return (← get).read path
  isFile path := do return (← get).isFile path
  makeDirectories path := modifyGet fun tree => tree.makeDirectories path
  put path contents := modifyGet fun tree => tree.put path contents

end Tree

end Provision.Files
