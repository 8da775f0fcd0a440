import Provision.Token

/-!
# What a program needs

Rendered text may use something that the preamble of the generated program has to provide: an
import, or a helper function. Needs are collected in the order in which they come up and listed
without repeats in a fixed order.
-/

namespace Provision.Render

inductive Import where
  | provider (package : String) (module : Option String)
  | config
  | json
  | base64
  | files
  | strings
  | format
  | os
  deriving DecidableEq, Repr

inductive Helper where
  | readFile
  | toJson
  | fromBase64
  | cwd
  | stackOutput
  deriving DecidableEq, Repr

inductive Need where
  | imported (item : Import)
  | helper (helper : Helper)
  deriving DecidableEq, Repr

def Import.fixed : List Import := [.config, .json, .base64, .files, .strings, .format, .os]

def Import.name? : Import → Option String
  | .provider _ _ => none
  | .config => some "config"
  | .json => some "json"
  | .base64 => some "base64"
  | .files => some "files"
  | .strings => some "strings"
  | .format => some "format"
  | .os => some "os"

def Helper.all : List Helper := [.readFile, .toJson, .fromBase64, .cwd, .stackOutput]

def Helper.name : Helper → String
  | .readFile => "readFile"
  | .toJson => "toJson"
  | .fromBase64 => "fromBase64"
  | .cwd => "cwd"
  | .stackOutput => "stackOutput"

namespace Need

def provider (token : TypeToken) : Need :=
  .imported (.provider token.package token.modulePath)

def provider? : Need → Option (String × Option String)
  | .imported (.provider package module) => some (package, module)
  | _ => none

end Need

/-- Whether one provider is listed before another or is the same: by package, then by module. -/
def providerLe (left right : String × Option String) : Bool :=
  if left.1 = right.1 then
    match left.2, right.2 with
    | none, _ => true
    | some _, none => false
    | some a, some b => decide (a ≤ b)
  else decide (left.1 ≤ right.1)

def providersOf (needs : List Need) : List (String × Option String) :=
  (needs.filterMap Need.provider?).eraseDups.mergeSort providerLe

def importsOf (needs : List Need) : List Import :=
  (providersOf needs).map (fun (package, module) => .provider package module)
    ++ Import.fixed.filter fun item => needs.contains (.imported item)

def packagesOf (needs : List Need) : List String :=
  ((providersOf needs).map Prod.fst).eraseDups

def helpersOf (needs : List Need) : List Helper :=
  Helper.all.filter fun helper => needs.contains (.helper helper)

end Provision.Render
