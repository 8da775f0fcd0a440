import Provision.Diagnostic

/-!
# Type tokens

A token such as `aws:s3/bucket:Bucket` names a resource, a struct or a function of a provider
package by package, module and name. The module may be left out.
-/

namespace Provision

structure TypeToken where
  package : String
  module : String
  name : String
  deriving DecidableEq, Repr

namespace TypeToken

def ofSegments? : List (List Char) → Option TypeToken
  | [package, name] => some ⟨String.ofList package, "index", String.ofList name⟩
  | [package, module, name] =>
    some ⟨String.ofList package, String.ofList module, String.ofList name⟩
  | _ => none

/-- Two or three segments divided by colons, none of them empty. -/
def ofText? (text : String) : Option TypeToken :=
  let segments := text.toList.splitOn ':'
  if segments.any List.isEmpty then none else ofSegments? segments

def parse (text : String) : Except Malformed TypeToken :=
  match ofText? text with
  | some token => .ok token
  | none =>
    .error
      { message := s!"`{text}` is not a valid type token"
        span := ⟨0, text.utf8ByteSize⟩
        help := some "type tokens look like `package:module:Type`" }

/-- The module up to its first slash, unless that is empty or the root module `index`. -/
def modulePath (token : TypeToken) : Option String :=
  let path := token.module.toList.takeWhile (· != '/')
  if path.isEmpty || path == "index".toList then none else some (String.ofList path)

end TypeToken

end Provision
