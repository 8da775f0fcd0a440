import Provision.Ty.Basic

/-!
# Provider schemas

What a provider package declares: resources, structs and functions, each with typed properties.
-/

namespace Provision.Schema

inductive SchemaType where
  | string
  | number
  | integer
  | boolean
  | any
  | asset
  | archive
  | array (items : SchemaType)
  | map (values : SchemaType)
  | ref (token : String)
  | union (oneOf : List SchemaType)
  deriving Repr, Inhabited

namespace SchemaType

mutual

def toTy : SchemaType → Ty
  | .string => .string
  | .number => .number
  | .integer => .int
  | .boolean => .bool
  | .any => .any
  | .asset => .asset
  | .archive => .archive
  | .array items => .list (toTy items)
  | .map values => .map (toTy values)
  | .ref token => .object token
  | .union oneOf => .union (toTys oneOf)

def toTys : List SchemaType → List Ty
  | [] => []
  | type :: rest => toTy type :: toTys rest

end

end SchemaType

structure Property where
  name : String
  type : SchemaType
  required : Bool
  deriving Repr, Inhabited

def Property.toTy (property : Property) : Ty :=
  if property.required then property.type.toTy else property.type.toTy.mkOptional

def findProperty (properties : List Property) (name : String) : Option Property :=
  properties.find? (·.name == name)

structure Resource where
  token : String
  inputs : List Property
  outputs : List Property
  deriving Repr, Inhabited

namespace Resource

def input (resource : Resource) (name : String) : Option Property :=
  findProperty resource.inputs name

/-- Inputs can be read back under their own names. -/
def output (resource : Resource) (name : String) : Option Property :=
  findProperty resource.outputs name <|> resource.input name

end Resource

structure Struct where
  token : String
  properties : List Property
  deriving Repr, Inhabited

namespace Struct

def property (struct : Struct) (name : String) : Option Property :=
  findProperty struct.properties name

def soleScalar (struct : Struct) : Option Property :=
  match struct.properties.filter (·.type.toTy.isScalar) with
  | [only] => some only
  | _ => none

end Struct

structure Function where
  token : String
  inputs : List Property
  outputs : List Property
  deriving Repr, Inhabited

namespace Function

def input (function : Function) (name : String) : Option Property :=
  findProperty function.inputs name

def output (function : Function) (name : String) : Option Property :=
  findProperty function.outputs name

end Function

structure Package where
  name : String
  resources : List Resource
  types : List Struct
  functions : List Function
  deriving Repr, Inhabited

end Provision.Schema
