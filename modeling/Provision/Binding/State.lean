import Provision.Bound.Node
import Provision.Schema.Registry

/-!
# The state of binding

Binding is fail-soft: a problem becomes a diagnostic and binding goes on. Besides the diagnostics
it keeps what is known about each variable, since a variable's value is bound once, where it is
first read or at its declaration.
-/

namespace Provision.Binding

inductive Progress where
  | underWay
  | done (value : Bound.Expr)

structure State where
  /-- By position of the declaration, latest entry first. -/
  progress : List (Nat × Progress) := []
  diagnostics : List Diagnostic := []

abbrev Bind := StateM State

abbrev Symbols := List (String × Nat × Node)

structure Scope where
  registry : Schema.Registry
  symbols : Symbols
  subject : String
  variableValue : Nat → Bind Bound.Expr

def Scope.report (scope : Scope) (diagnostic : Diagnostic) : Bind Unit :=
  modify fun state =>
    { state with diagnostics := state.diagnostics ++ [diagnostic.withSubject scope.subject] }

def Scope.fail (scope : Scope) (kind : DiagnosticKind) (message : String) (span : Option Span) :
    Bind Unit :=
  scope.report ((Diagnostic.error kind message).withSpan span)

def configTy : ConfigType → Ty
  | .string => .string
  | .number => .number
  | .int => .int
  | .boolean => .bool
  | .stringList => .list .string
  | .object => .any

def eventualIf (eventual : Bool) (ty : Ty) : Ty :=
  if eventual then ty.withoutEventual.mkEventual else ty

end Provision.Binding
