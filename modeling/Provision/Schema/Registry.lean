import Provision.Schema.Basic

/-!
# Schema registries

A registry holds packages in slots and an index from tokens to places. A package enters its tokens
into the index one by one before it takes its slot, and stops at the first that is there already;
the tokens entered up to then stay.
-/

namespace Provision.Schema

inductive Declaration where
  | resource (schema : Resource)
  | struct (schema : Struct)
  | function (schema : Function)
  deriving Repr

inductive DeclarationKind where
  | resource
  | struct
  | function
  deriving DecidableEq, Repr

structure Place where
  kind : DeclarationKind
  slot : Nat
  position : Nat
  deriving DecidableEq, Repr

structure Registry where
  packages : List Package := []
  index : List (String × Place) := []
  deriving Repr, Inhabited

/-- What a token is found as. A place that names no declaration is out of range. -/
inductive Found where
  | declared (declaration : Declaration)
  | missing
  | outOfRange
  deriving Repr

def Found.declaration? : Found → Option Declaration
  | .declared declaration => some declaration
  | .missing | .outOfRange => none

structure DuplicateToken where
  token : String
  first : String
  second : String
  deriving DecidableEq, Repr

def DuplicateToken.message (fault : DuplicateToken) : String :=
  s!"token `{fault.token}` is declared by both `{fault.first}` and `{fault.second}`"

/-- What ends the addition of a package. A token that is in the index already is reported with the
package that holds its slot; a slot that no package has taken is out of range. -/
inductive AddFault where
  | duplicate (fault : DuplicateToken)
  | outOfRange (slot count : Nat)
  deriving DecidableEq, Repr

def AddFault.message : AddFault → String
  | .duplicate fault => fault.message
  | .outOfRange slot count => s!"index out of bounds: the len is {count} but the index is {slot}"

namespace Registry

def places (slot : Nat) (package : Package) : List (String × Place) :=
  package.resources.zipIdx.map (fun (schema, i) => (schema.token, ⟨.resource, slot, i⟩))
    ++ package.types.zipIdx.map (fun (schema, i) => (schema.token, ⟨.struct, slot, i⟩))
    ++ package.functions.zipIdx.map (fun (schema, i) => (schema.token, ⟨.function, slot, i⟩))

def clash (registry : Registry) (package token : String) (existing : Place) : AddFault :=
  match registry.packages[existing.slot]? with
  | some first => .duplicate ⟨token, first.name, package⟩
  | none => .outOfRange existing.slot registry.packages.length

def enter (registry : Registry) (package : String) :
    List (String × Place) → Option AddFault × Registry
  | [] => (none, registry)
  | (token, place) :: rest =>
    match registry.index.lookup token with
    | some existing => (some (registry.clash package token existing), registry)
    | none => enter { registry with index := (token, place) :: registry.index } package rest

def add (registry : Registry) (package : Package) : Option AddFault × Registry :=
  match registry.enter package.name (places registry.packages.length package) with
  | (some fault, registry) => (some fault, registry)
  | (none, registry) => (none, { registry with packages := registry.packages ++ [package] })

def addAll (registry : Registry) : List Package → Except AddFault Registry
  | [] => .ok registry
  | package :: rest =>
    match registry.add package with
    | (some fault, _) => .error fault
    | (none, registry) => addAll registry rest

def ofPackages (packages : List Package) : Except AddFault Registry :=
  addAll {} packages

def packageNames (registry : Registry) : List String := registry.packages.map Package.name

def declarationAt (registry : Registry) (place : Place) : Option Declaration := do
  let package ← registry.packages[place.slot]?
  match place.kind with
  | .resource => package.resources[place.position]?.map .resource
  | .struct => package.types[place.position]?.map .struct
  | .function => package.functions[place.position]?.map .function

def find (registry : Registry) (token : String) : Found :=
  match registry.index.lookup token with
  | none => .missing
  | some place =>
    match registry.declarationAt place with
    | some declaration => .declared declaration
    | none => .outOfRange

def lookup (registry : Registry) (token : String) : Option Declaration :=
  (registry.find token).declaration?

def resource? (registry : Registry) (token : String) : Option Resource :=
  match registry.lookup token with
  | some (.resource schema) => some schema
  | _ => none

def struct? (registry : Registry) (token : String) : Option Struct :=
  match registry.lookup token with
  | some (.struct schema) => some schema
  | _ => none

def function? (registry : Registry) (token : String) : Option Function :=
  match registry.lookup token with
  | some (.function schema) => some schema
  | _ => none

end Registry

end Provision.Schema
