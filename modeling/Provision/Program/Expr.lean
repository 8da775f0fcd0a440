import Provision.Access
import Provision.Number.Decimal

/-!
# Expressions

The expressions of a program as they are declared, before names and types are resolved. Each may
carry the span it was read from.
-/

namespace Provision

inductive Literal where
  | string (value : String)
  | number (value : Number)
  | bool (value : Bool)
  | null
  deriving DecidableEq, Repr, Inhabited

inductive Part (α : Type) where
  | text (value : String)
  | expr (value : α)
  deriving DecidableEq, Repr

inductive BinaryOp where
  | add
  | sub
  | mul
  | div
  | mod
  | eq
  | notEq
  | lt
  | ltEq
  | gt
  | gtEq
  | and
  | or
  deriving DecidableEq, Repr, Inhabited

namespace BinaryOp

def all : List BinaryOp :=
  [.add, .sub, .mul, .div, .mod, .eq, .notEq, .lt, .ltEq, .gt, .gtEq, .and, .or]

def symbol : BinaryOp → String
  | .add => "+"
  | .sub => "-"
  | .mul => "*"
  | .div => "/"
  | .mod => "%"
  | .eq => "=="
  | .notEq => "!="
  | .lt => "<"
  | .ltEq => "<="
  | .gt => ">"
  | .gtEq => ">="
  | .and => "&&"
  | .or => "||"

def ofSymbol? (symbol : String) : Option BinaryOp := all.find? (·.symbol == symbol)

def isComparison : BinaryOp → Bool
  | .eq | .notEq | .lt | .ltEq | .gt | .gtEq => true
  | _ => false

def isLogical : BinaryOp → Bool
  | .and | .or => true
  | _ => false

end BinaryOp

inductive UnaryOp where
  | not
  | negate
  deriving DecidableEq, Repr, Inhabited

namespace UnaryOp

def symbol : UnaryOp → String
  | .not => "!"
  | .negate => "-"

end UnaryOp

inductive Expr where
  | literal (value : Literal) (span : Option Span)
  | template (parts : List (Part Expr)) (span : Option Span)
  | object (entries : List (String × Expr)) (span : Option Span)
  | array (items : List Expr) (span : Option Span)
  | tuple (items : List Expr) (span : Option Span)
  | access (path : Access) (span : Option Span)
  | call (name : String) (args : List Expr) (span : Option Span)
  | invoke (token : String) (args : List (String × Expr)) (field : Option String)
      (span : Option Span)
  | conditional (condition accepted rejected : Expr) (span : Option Span)
  | binary (op : BinaryOp) (left right : Expr) (span : Option Span)
  | unary (op : UnaryOp) (operand : Expr) (span : Option Span)
  | index (collection key : Expr) (span : Option Span)
  deriving Repr, Inhabited

abbrev Members := List (String × Expr)

namespace Expr

def span : Expr → Option Span
  | .literal _ span => span
  | .template _ span => span
  | .object _ span => span
  | .array _ span => span
  | .tuple _ span => span
  | .access _ span => span
  | .call _ _ span => span
  | .invoke _ _ _ span => span
  | .conditional _ _ _ span => span
  | .binary _ _ _ span => span
  | .unary _ _ span => span
  | .index _ _ span => span

def string (value : String) : Expr := .literal (.string value) none

def null : Expr := .literal .null none

end Expr

end Provision
