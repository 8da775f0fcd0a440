/-!
# Spans

A range of bytes in the text that an expression was read from.
-/

namespace Provision

structure Span where
  start : Nat
  stop : Nat
  deriving DecidableEq, Repr, Inhabited

namespace Span

def length (span : Span) : Nat := span.stop - span.start

def isEmpty (span : Span) : Bool := span.length == 0

def shift (span : Span) (distance : Nat) : Span :=
  ⟨span.start + distance, span.stop + distance⟩

end Span

end Provision
