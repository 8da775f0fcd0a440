import Provision.Json.Value
import Provision.Schema.Basic

/-!
# Reading package schemas

A package schema is a JSON document. Each record may be written as an object or as the array of
its fields in order. Fields that a record does not know are skipped without a look at their
values; a known field that is repeated is refused.
-/

namespace Provision.Schema

open Json (Document Glyph)

def knownFields (known : List String) :
    List (List Glyph × Document) → Option (List (String × Document))
  | [] => some []
  | (key, value) :: rest => do
    let key ← Json.glyphsText? key
    let fields ← knownFields known rest
    if known.contains key then
      if (fields.lookup key).isSome then none else some ((key, value) :: fields)
    else some fields

def record? (known : List String) : Document → Option (List (String × Document))
  | .object fields => knownFields known fields
  | .array items => if known.length < items.length then none else some (known.zip items)
  | _ => none

def text? : Document → Option String
  | .string glyphs => Json.glyphsText? glyphs
  | _ => none

def list? {α : Type} (decode : Document → Option α) : Document → Option (List α)
  | .array items => items.mapM decode
  | _ => none

def required? {α : Type} (fields : List (String × Document)) (name : String)
    (decode : Document → Option α) : Option α :=
  (fields.lookup name).bind decode

def listOrEmpty? {α : Type} (fields : List (String × Document)) (name : String)
    (decode : Document → Option α) : Option (List α) :=
  match fields.lookup name with
  | none => some []
  | some value => list? decode value

def kindNames : List String :=
  ["string", "number", "integer", "boolean", "any", "asset", "archive", "array", "map", "ref",
    "union"]

def kindName? (inner : Bool) (document : Document) : Option String :=
  match document with
  | .string glyphs => (Json.glyphsText? glyphs).filter kindNames.contains
  | .number numeral =>
    match inner, numeral.toJson? with
    | true, some (.int position) => if position < 0 then none else kindNames[position.toNat]?
    | _, _ => none
  | _ => none

def kindField? : String → Option String
  | "array" => some "items"
  | "map" => some "values"
  | "ref" => some "token"
  | "union" => some "oneOf"
  | _ => none

def plainType? : String → Option SchemaType
  | "string" => some .string
  | "number" => some .number
  | "integer" => some .integer
  | "boolean" => some .boolean
  | "any" => some .any
  | "asset" => some .asset
  | "archive" => some .archive
  | _ => none

def fieldType? (read : Document → Option SchemaType) (kind : String) (field : Document) :
    Option SchemaType :=
  match kind with
  | "array" => (read field).map .array
  | "map" => (read field).map .map
  | "ref" => (text? field).map .ref
  | "union" => (list? read field).map .union
  | _ => none

def type? (inner : Bool) : Nat → Document → Option SchemaType
  | 0, _ => none
  | depth + 1, .object fields => do
    let kind ← required? (← knownFields ["kind"] fields) "kind" (kindName? inner)
    match kindField? kind with
    | none => plainType? kind
    | some name =>
      required? (← knownFields [name] fields) name (fieldType? (type? true depth) kind)
  | depth + 1, .array (tag :: items) => do
    let kind ← kindName? inner tag
    match kindField? kind, items with
    | none, [] => plainType? kind
    | some _, [field] => fieldType? (type? true depth) kind field
    | _, _ => none
  | _, _ => none

/-- Containers around the type of a property: package, declarations, one of them, properties, one
of them. -/
def typeRoom : Nat := Json.depthLimit - 5

/-- A type is taken whole: all of it has to be a value, what is skipped as well. -/
def wholeType? (document : Document) : Option SchemaType :=
  (document.toJson? typeRoom).bind fun _ => type? false Json.depthLimit document

def property? (document : Document) : Option Property := do
  let fields ← record? ["name", "type", "required"] document
  return {
    name := ← required? fields "name" text?
    type := ← required? fields "type" wholeType?
    required := ← match fields.lookup "required" with
      | none => some false
      | some (.bool value) => some value
      | some _ => none }

def resource? (document : Document) : Option Resource := do
  let fields ← record? ["token", "inputs", "outputs"] document
  return {
    token := ← required? fields "token" text?
    inputs := ← listOrEmpty? fields "inputs" property?
    outputs := ← listOrEmpty? fields "outputs" property? }

def struct? (document : Document) : Option Struct := do
  let fields ← record? ["token", "properties"] document
  return {
    token := ← required? fields "token" text?
    properties := ← listOrEmpty? fields "properties" property? }

def function? (document : Document) : Option Function := do
  let fields ← record? ["token", "inputs", "outputs"] document
  return {
    token := ← required? fields "token" text?
    inputs := ← listOrEmpty? fields "inputs" property?
    outputs := ← listOrEmpty? fields "outputs" property? }

def package? (document : Document) : Option Package := do
  let fields ← record? ["name", "resources", "types", "functions"] document
  return {
    name := ← required? fields "name" text?
    resources := ← listOrEmpty? fields "resources" resource?
    types := ← listOrEmpty? fields "types" struct?
    functions := ← listOrEmpty? fields "functions" function? }

def Package.parse? (text : String) : Option Package :=
  (Document.parse? text).bind package?

end Provision.Schema
