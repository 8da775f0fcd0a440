import Provision.Conversion
import Provision.Files.Path

/-!
# Files in place

What a conversion asks of the place where its files are, and how generated files get there: a file
that already holds the wanted text is left alone, any other is replaced as a whole.
-/

namespace Provision.Files

inductive PutFault where
  | write
  | persist
  deriving DecidableEq, Repr

structure FileSystem (m : Type → Type) where
  read : String → m (Option String)
  isFile : String → m Bool
  /-- Makes a directory with all that lead to it; tells whether it is there afterwards. -/
  makeDirectories : String → m Bool
  /-- Writes a new file and moves it into place, so that nobody sees a part of it. -/
  put : String → String → m (Except PutFault Unit)

inductive PublishFault where
  | createDirectory (path : String)
  | write (path : String)
  | persist (path : String)
  deriving DecidableEq, Repr

def PublishFault.message : PublishFault → String
  | .createDirectory path => "failed to create directory " ++ path
  | .write path => "failed to write " ++ path
  | .persist path => "failed to move " ++ path ++ " into place"

def PublishFault.ofPut (path : String) : PutFault → PublishFault
  | .write => .write path
  | .persist => .persist path

def directoryOf (path : String) : String :=
  match parent? path with
  | none | some "" => "."
  | some directory => directory

section

variable {m : Type → Type} [Monad m]

def writeAtomic (system : FileSystem m) (path contents : String) :
    m (Except PublishFault Bool) := do
  if (← system.read path) == some contents then return .ok false
  unless ← system.makeDirectories (directoryOf path) do
    return .error (.createDirectory (directoryOf path))
  match ← system.put path contents with
  | .ok _ => return .ok true
  | .error fault => return .error (.ofPut path fault)

/-- Writes files beneath a directory, up to the first failure. Gives the paths that changed. -/
def publish (system : FileSystem m) (directory : String) :
    List GeneratedFile → m (Except PublishFault (List String))
  | [] => return .ok []
  | file :: rest => do
    let path := join directory file.path
    match ← writeAtomic system path file.contents with
    | .error fault => return .error fault
    | .ok changed =>
      match ← publish system directory rest with
      | .error fault => return .error fault
      | .ok paths => return .ok (if changed then path :: paths else paths)

end

end Provision.Files
