import Provision.Span

/-!
# Diagnostics

The problems found while a program is converted. A diagnostic does not stop the conversion; it
names the declaration it belongs to, its `subject`, when there is one.
-/

namespace Provision

inductive Severity where
  | error
  | warning
  deriving DecidableEq, Repr, Inhabited

def Severity.name : Severity → String
  | .error => "error"
  | .warning => "warning"

inductive DiagnosticKind where
  | reference
  | typeMismatch
  | unsupportedExpression
  | cyclicReference
  | unknownBuiltin
  | duplicateDeclaration
  | schema
  | malformed
  deriving DecidableEq, Repr, Inhabited

namespace DiagnosticKind

def code : DiagnosticKind → String
  | .reference => "infragen::reference"
  | .typeMismatch => "infragen::type_mismatch"
  | .unsupportedExpression => "infragen::unsupported_expression"
  | .cyclicReference => "infragen::cyclic_reference"
  | .unknownBuiltin => "infragen::unknown_builtin"
  | .duplicateDeclaration => "infragen::duplicate_declaration"
  | .schema => "infragen::schema"
  | .malformed => "infragen::syntax"

def name : DiagnosticKind → String
  | .reference => "ReferenceError"
  | .typeMismatch => "TypeMismatchError"
  | .unsupportedExpression => "UnsupportedExpressionError"
  | .cyclicReference => "CyclicReferenceError"
  | .unknownBuiltin => "UnknownBuiltinError"
  | .duplicateDeclaration => "DuplicateDeclarationError"
  | .schema => "SchemaError"
  | .malformed => "SyntaxError"

def all : List DiagnosticKind :=
  [.reference, .typeMismatch, .unsupportedExpression, .cyclicReference, .unknownBuiltin,
    .duplicateDeclaration, .schema, .malformed]

def ofName? (name : String) : Option DiagnosticKind := all.find? (·.name == name)

end DiagnosticKind

structure Diagnostic where
  severity : Severity
  kind : DiagnosticKind
  message : String
  subject : Option String := none
  span : Option Span := none
  help : Option String := none
  deriving DecidableEq, Repr, Inhabited

namespace Diagnostic

def error (kind : DiagnosticKind) (message : String) : Diagnostic :=
  { severity := .error, kind, message }

def warning (kind : DiagnosticKind) (message : String) : Diagnostic :=
  { severity := .warning, kind, message }

def withSubject (diagnostic : Diagnostic) (subject : String) : Diagnostic :=
  { diagnostic with subject := some subject }

def withSpan (diagnostic : Diagnostic) (span : Option Span) : Diagnostic :=
  { diagnostic with span }

def withHelp (diagnostic : Diagnostic) (help : String) : Diagnostic :=
  { diagnostic with help := some help }

def isError (diagnostic : Diagnostic) : Bool := diagnostic.severity == .error

def text (diagnostic : Diagnostic) : String :=
  match diagnostic.subject with
  | some subject => s!"{diagnostic.kind.name} in `{subject}`: {diagnostic.message}"
  | none => s!"{diagnostic.kind.name}: {diagnostic.message}"

end Diagnostic

def hasErrors (diagnostics : List Diagnostic) : Bool := diagnostics.any Diagnostic.isError

structure Malformed where
  message : String
  span : Span
  help : Option String := none
  deriving DecidableEq, Repr

def Malformed.toDiagnostic (fault : Malformed) : Diagnostic :=
  { severity := .error
    kind := .malformed
    message := fault.message
    span := some fault.span
    help := fault.help }

end Provision
