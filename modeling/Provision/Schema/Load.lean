import Provision.Files.System
import Provision.Schema.Decode

/-!
# Schema files

A registry is filled from files that hold a package each, in the order they are named.
-/

namespace Provision.Schema

inductive LoadFault where
  | unreadable (path : String)
  | malformed (path : String)
  | refused (fault : AddFault)
  deriving DecidableEq, Repr

def LoadFault.message : LoadFault → String
  | .unreadable path => "failed to read schema " ++ path
  | .malformed path => "failed to parse schema " ++ path
  | .refused fault => fault.message

section

variable {m : Type → Type} [Monad m]

def Registry.load (system : Files.FileSystem m) (registry : Registry) :
    List String → m (Except LoadFault Registry)
  | [] => return .ok registry
  | path :: rest => do
    match ← system.read path with
    | none => return .error (.unreadable path)
    | some text =>
      match Package.parse? text with
      | none => return .error (.malformed path)
      | some package =>
        match registry.add package with
        | (some fault, _) => return .error (.refused fault)
        | (none, registry) => load system registry rest

end

end Provision.Schema
