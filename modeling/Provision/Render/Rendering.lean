import Provision.Render.Need

/-!
# Renderings

Rendering an expression gives a text, or a diagnostic where the target language has no way to say
it. Either way there is a list of needs: what came up before a failure is kept.
-/

namespace Provision.Render

structure Rendering (α : Type) where
  result : Except Diagnostic α
  needs : List Need

namespace Rendering

def bind {α β : Type} (first : Rendering α) (next : α → Rendering β) : Rendering β :=
  match first.result with
  | .ok value => ⟨(next value).result, first.needs ++ (next value).needs⟩
  | .error diagnostic => ⟨.error diagnostic, first.needs⟩

instance : Monad Rendering where
  pure value := ⟨.ok value, []⟩
  bind := bind

def fail {α : Type} (diagnostic : Diagnostic) : Rendering α := ⟨.error diagnostic, []⟩

def unsupported {α : Type} (message : String) : Rendering α :=
  fail (.error .unsupportedExpression message)

def need (needs : List Need) : Rendering Unit := ⟨.ok (), needs⟩

@[simp] theorem result_pure {α : Type} (value : α) :
    (pure value : Rendering α).result = .ok value := rfl

@[simp] theorem needs_pure {α : Type} (value : α) : (pure value : Rendering α).needs = [] := rfl

theorem bind_ok {α β : Type} {first : Rendering α} {value : α} (next : α → Rendering β)
    (h : first.result = .ok value) :
    (first >>= next) = ⟨(next value).result, first.needs ++ (next value).needs⟩ := by
  simp only [Bind.bind, bind, h]

theorem bind_error {α β : Type} {first : Rendering α} {diagnostic : Diagnostic}
    (next : α → Rendering β) (h : first.result = .error diagnostic) :
    (first >>= next) = ⟨.error diagnostic, first.needs⟩ := by
  simp only [Bind.bind, bind, h]

end Rendering

end Provision.Render
