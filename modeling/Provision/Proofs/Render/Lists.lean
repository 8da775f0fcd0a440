import Mathlib.Data.List.Forall2
import Provision.Assembly
import Provision.Proofs.Tree

/-!
# Renderings in a row

Renderings compose as computations do, and each function that renders a list renders its members
one after the other.
-/

namespace Provision.Render

instance : LawfulMonad Rendering := by
  refine LawfulMonad.mk' Rendering ?_ ?_ ?_
  · intro α rendering
    obtain ⟨result, needs⟩ := rendering
    cases result <;> simp [Functor.map, Rendering.bind]
  · intro α β value next
    simp [Bind.bind, Rendering.bind, Pure.pure]
  · intro α β γ first next last
    obtain ⟨result, needs⟩ := first
    cases result with
    | error diagnostic => rfl
    | ok value =>
      simp only [Bind.bind, Rendering.bind]
      cases (next value).result <;> simp

namespace Rendering

variable {α β : Type}

theorem result_bind_eq_ok {first : Rendering α} {next : α → Rendering β} {final : β} :
    (first >>= next).result = .ok final ↔
      ∃ value, first.result = .ok value ∧ (next value).result = .ok final := by
  cases hresult : first.result with
  | ok value => simp [bind_ok next hresult]
  | error diagnostic => simp [bind_error next hresult]

theorem bind_congr_ok {first : Rendering α} {next other : α → Rendering β}
    (h : ∀ value, first.result = .ok value → next value = other value) :
    first >>= next = first >>= other := by
  cases hresult : first.result with
  | ok value => rw [bind_ok next hresult, bind_ok other hresult, h value hresult]
  | error diagnostic => rw [bind_error next hresult, bind_error other hresult]

theorem forall₂_of_mapM {f : α → Rendering β} {items : List α} {values : List β}
    (h : (items.mapM f).result = .ok values) :
    List.Forall₂ (fun item value => (f item).result = .ok value) items values := by
  induction items generalizing values with
  | nil =>
    obtain rfl : [] = values := Except.ok.inj h
    exact .nil
  | cons item rest ih =>
    rw [List.mapM_cons] at h
    obtain ⟨value, hvalue, hrest⟩ := result_bind_eq_ok.mp h
    obtain ⟨others, hothers, heq⟩ := result_bind_eq_ok.mp hrest
    obtain rfl : value :: others = values := Except.ok.inj heq
    exact .cons hvalue (ih hothers)

end Rendering

open Rendering

def pieces : List (Part Bound.Expr) → List String → List Piece
  | .text value :: rest, texts => .text value :: pieces rest texts
  | .expr _ :: rest, text :: texts => .code text :: pieces rest texts
  | _, _ => []

def members (name : String → String) (slots : List Bound.Member)
    (texts : List String) : List (String × String) :=
  slots.zipWith (fun slot text => (name slot.key, text)) texts

def sources (dialect : Dialect) (args : List Bound.Expr) (texts : List String) :
    List (String × Ty) :=
  args.zipWith (fun arg text => (dialect.applySource arg text, arg.ty.withoutEventual)) texts

section

variable (env : Env)

theorem renderParts_eq (parts : List (Part Bound.Expr)) :
    renderParts env parts =
      pieces parts <$> (parts.filterMap Part.value?).mapM (expression env .any) := by
  induction parts with
  | nil => simp [renderParts, pieces]
  | cons part rest ih =>
    cases part <;> simp [renderParts, ih, pieces, Part.value?, expression, List.filterMap_cons]

theorem renderFields_eq (slots : List Bound.Member) :
    renderFields env slots = members env.dialect.propertyName slots <$>
      slots.mapM fun slot => expression env slot.expected slot.value := by
  induction slots with
  | nil => simp [renderFields, members]
  | cons slot rest ih => simp [renderFields, expression, members, ih]

theorem renderValues_eq (values : Ty) (slots : List Bound.Member) :
    renderValues env values slots =
      members id slots <$> slots.mapM fun slot => expression env values slot.value := by
  induction slots with
  | nil => simp [renderValues, members]
  | cons slot rest ih => simp [renderValues, expression, members, ih]

theorem renderList_eq (element : Ty) (items : List Bound.Expr) :
    renderList env element items = items.mapM (expression env element) := by
  induction items with
  | nil => rfl
  | cons item rest ih => simp [renderList, expression, ih]

theorem renderArgs_eq (params : List Ty) (args : List Bound.Expr) :
    renderArgs env params args = (params.zip args).mapM fun pair =>
      expression env pair.1 pair.2 := by
  induction params generalizing args with
  | nil => simp [renderArgs]
  | cons param params ih => cases args <;> simp [renderArgs, expression, ih]

theorem renderSources_eq (args : List Bound.Expr) :
    renderSources env args =
      sources env.dialect args <$> args.mapM (expression env .any) := by
  induction args with
  | nil => simp [renderSources, sources]
  | cons arg rest ih => simp [renderSources, expression, sources, ih]

theorem renderAll_eq (expected : Ty) (values : List Bound.Expr) :
    Assembly.renderAll env expected values = values.mapM (expression env expected) := by
  induction values with
  | nil => rfl
  | cons value rest ih => simp [Assembly.renderAll, ih]

end

end Provision.Render
