import Provision.Diagnostic

/-!
# Reported values

A value together with the diagnostics that came up while it was made, in order. Problems never
stop the work, so this is all the effect that loading a template has.
-/

namespace Provision

structure Reported (α : Type) where
  value : α
  diagnostics : List Diagnostic

namespace Reported

def report (diagnostic : Diagnostic) : Reported Unit := ⟨(), [diagnostic]⟩

instance : Monad Reported where
  pure value := ⟨value, []⟩
  bind first next :=
    let second := next first.value
    ⟨second.value, first.diagnostics ++ second.diagnostics⟩

@[simp] theorem value_pure {α : Type} (value : α) : (pure value : Reported α).value = value := rfl

@[simp] theorem diagnostics_pure {α : Type} (value : α) :
    (pure value : Reported α).diagnostics = [] := rfl

@[simp] theorem value_bind {α β : Type} (first : Reported α) (next : α → Reported β) :
    (first >>= next).value = (next first.value).value := rfl

@[simp] theorem diagnostics_bind {α β : Type} (first : Reported α) (next : α → Reported β) :
    (first >>= next).diagnostics = first.diagnostics ++ (next first.value).diagnostics := rfl

instance : LawfulMonad Reported :=
  LawfulMonad.mk' Reported (fun _ => by simp [Functor.map]) (fun _ _ => by simp [bind, pure])
    (fun _ _ _ => by simp [bind])

end Reported

end Provision
