import Provision.Proofs.Binding.Types

/-!
# Where eventual types come from

Whatever elaborates has flat types throughout, and under their outer marks these types have every
hereditary property. An eventual type always comes from an eventual reading: one that the expression
is, or one below it. None of this depends on whether an error was reported.
-/

namespace Provision.Binding

open Bound.Expr (children)

section

variable {property : Ty → Prop} (hproperty : Ty.Hereditary property)

include hproperty

private theorem hereditary_step {registry : Schema.Registry} {current next : Ty}
    {accessor normal : Accessor} (hcurrent : property current.withoutEventual)
    (h : step registry current accessor = .ok (normal, next)) : property next.withoutEventual := by
  by_cases hresource : ∃ token, current = .resource token
  · obtain ⟨token, rfl⟩ := hresource
    obtain ⟨-, inner, rfl, hinner⟩ := stepResource_ok h
    exact hproperty.bare hinner
  · rw [step_of_not_resource accessor fun token htoken => hresource ⟨token, htoken⟩] at h
    have hresolved := hproperty.resolved hcurrent
    refine hproperty.withoutEventual ?_
    unfold stepValue at h
    split at h
    · cases h
      exact hproperty.bare rfl
    · cases h
      exact hproperty.error
    · cases h
      exact hproperty.bare rfl
    · exact hproperty.bare (stepStruct_ok h).2
    · exact hproperty.bare (stepStruct_ok h).2
    · next hmap =>
      cases h
      exact hproperty.map.mp (hmap ▸ hresolved)
    · next hmap =>
      cases h
      exact hproperty.map.mp (hmap ▸ hresolved)
    · next hlist =>
      cases h
      exact hproperty.list.mp (hlist ▸ hresolved)
    · cases h

theorem hereditary_walk {registry : Schema.Registry} {current : Ty} (accessors : List Accessor)
    (hcurrent : property current.withoutEventual) :
    property (walk registry current accessors).ty.withoutEventual := by
  induction accessors generalizing current with
  | nil => exact hcurrent
  | cons accessor rest ih =>
    rw [walk]
    split
    · exact hproperty.error
    · next hstep => exact ih (hereditary_step hproperty hcurrent hstep)

end

theorem flat_walk {registry : Schema.Registry} {current : Ty} (accessors : List Accessor)
    (hcurrent : current.flat = true) : (walk registry current accessors).ty.flat = true :=
  hereditary_walk Ty.hereditary_plain accessors hcurrent

section

variable {registry : Schema.Registry} {symbols : Symbols} {known : Nat → Ty → Prop}
  {reported : Diagnostic → Prop} {expected : Ty} {declared : Expr} {bound : Bound.Expr}

section

variable {property : Ty → Prop} (hproperty : Ty.Hereditary property)

include hproperty

theorem hereditary_operationTy (op : BinaryOp) (left right : Ty) :
    property ((operationTy op left right).getD .error) := by
  cases h : operationTy op left right with
  | none => exact hproperty.error
  | some ty =>
    have hty := mem_of_operationTy h
    simp only [List.mem_cons, List.not_mem_nil, or_false] at hty
    rcases hty with rfl | rfl | rfl | rfl <;> exact hproperty.bare rfl

theorem hereditary_negationTy (op : UnaryOp) (operand : Ty) :
    property (negationTy op operand) := by
  unfold negationTy
  split
  · exact hproperty.bare rfl
  · split <;> exact hproperty.bare rfl

theorem hereditary_functionTy (schema : Option Schema.Function) (field : Option String) :
    property ((functionTy schema field).getD .error) := by
  cases h : functionTy schema field with
  | none => exact hproperty.error
  | some ty => exact hproperty.bare (bare_of_functionTy h)

theorem hereditary_literal {ty : Ty} (h : ty ∈ [Ty.string, .number, .int, .bool, .null]) :
    property ty := by
  simp only [List.mem_cons, List.not_mem_nil, or_false] at h
  rcases h with rfl | rfl | rfl | rfl | rfl <;> exact hproperty.bare rfl

theorem Root.hereditary (hknown : ∀ position ty, known position ty → property ty.withoutEventual)
    {root : String} {kind : Bound.RootKind} {base : Ty} (h : Root symbols known root kind base) :
    property base.withoutEventual := by
  cases h with
  | config => exact hproperty.withoutEventual (hproperty.bare (bare_configTy _))
  | resource => exact hproperty.bare rfl
  | «variable» _ hty => exact hknown _ _ hty

theorem Shape.hereditary (hknown : ∀ position ty, known position ty → property ty.withoutEventual)
    (hexpected : expected.bare = true)
    (hchildren : ∀ child ∈ bound.children, property child.ty.withoutEventual)
    (h : Shape registry symbols known reported expected declared bound) :
    property bound.ty.withoutEventual := by
  cases h with
  | literal hbound =>
    obtain ⟨value, ty, rfl, hty⟩ := exists_literal hbound
    exact hproperty.withoutEventual (hereditary_literal hproperty hty)
  | template => exact hereditary_eventualIf hproperty _ (hproperty.bare rfl)
  | struct | unchecked | wrapped | input => exact hproperty.bare rfl
  | stopped | failed => exact hproperty.error
  | map => exact hproperty.withoutEventual (hproperty.mapTy hexpected hchildren)
  | array | tuple =>
    exact hproperty.withoutEventual (hproperty.listTy hexpected hchildren)
  | access hroot _ =>
    exact hereditary_eventualIf hproperty _
      (hereditary_walk hproperty _ (hroot.hereditary hproperty hknown))
  | call =>
    exact hereditary_eventualIf hproperty _
      (hproperty.withoutEventual (hproperty.callTy hchildren))
  | invoke =>
    exact Ty.Hereditary.mkEventual
      (hproperty.withoutEventual (hereditary_functionTy hproperty _ _))
  | @conditional _ _ _ _ c a r =>
    have hjoin := hproperty.join_withoutEventual (hchildren a (by simp [children]))
      (hchildren r (by simp [children]))
    rw [Bound.Expr.ty]
    split
    · exact Ty.Hereditary.mkEventual hjoin
    · exact hjoin
  | binary =>
    exact hereditary_eventualIf hproperty _
      (hproperty.withoutEventual (hereditary_operationTy hproperty _ _ _))
  | unary =>
    exact hereditary_eventualIf hproperty _
      (hproperty.withoutEventual (hereditary_negationTy hproperty _ _))
  | @index _ _ _ c k _ =>
    have hcollection := hchildren c (by simp [children])
    exact hereditary_eventualIf hproperty _
      (hproperty.withoutEventual (hereditary_elementTy hproperty hcollection))

theorem Elaborates.hereditary
    (hknown : ∀ position ty, known position ty → property ty.withoutEventual)
    (hexpected : expected.bare = true)
    (h : Elaborates registry symbols known reported expected declared bound) :
    ∀ part ∈ bound.subexprs, property part.ty.withoutEventual := by
  induction h with
  | @node expected declared bound hshape _ _ ih =>
    have hbelow : ∀ child ∈ bound.children, ∀ part ∈ child.subexprs,
        property part.ty.withoutEventual := by
      intro child hchild
      obtain ⟨site, hsite, rfl⟩ := hshape.exists_site hchild
      exact ih site hsite (hshape.bare_slot hexpected hsite)
    refine Bound.Expr.forall_mem_subexprs.mpr ⟨?_, hbelow⟩
    refine hshape.hereditary hproperty hknown hexpected fun child hchild => ?_
    exact hbelow child hchild child (Bound.Expr.self_mem_subexprs child)

end

theorem Root.flat (hknown : ∀ position ty, known position ty → ty.flat = true) {root : String}
    {kind : Bound.RootKind} {base : Ty} (h : Root symbols known root kind base) :
    base.flat = true :=
  h.hereditary Ty.hereditary_plain hknown

theorem Elaborates.flat (hknown : ∀ position ty, known position ty → ty.flat = true)
    (hexpected : expected.bare = true)
    (h : Elaborates registry symbols known reported expected declared bound) :
    ∀ part ∈ bound.subexprs, part.ty.flat = true :=
  h.hereditary Ty.hereditary_plain hknown hexpected

section

variable (hexpected : expected.bare = true)
  (hchildren : ∀ child ∈ bound.children, child.ty.flat = true)
  (h : Shape registry symbols known reported expected declared bound)

include hexpected hchildren h

theorem Shape.eventual_cases (heventual : bound.ty.isEventual = true) :
    Lowering.isCapture bound = true ∨ ∃ child ∈ bound.children, child.containsEventual = true := by
  have hplain : ∀ {ty : Ty}, ty.plain = true → ty.isEventual = true → False := by
    intro ty hty hty'
    simp [Ty.isEventual_of_plain hty] at hty'
  cases h with
  | literal hbound =>
    obtain ⟨value, ty, rfl, hty⟩ := exists_literal hbound
    exact (hplain (hereditary_literal Ty.hereditary_plain hty) heventual).elim
  | template =>
    have hparts := isEventual_of_eventualIf rfl heventual
    rw [Bound.Expr.partsContainEventual_eq] at hparts
    exact .inr (List.any_eq_true.mp hparts)
  | struct | unchecked | wrapped | input | stopped | failed =>
    exact absurd heventual Bool.false_ne_true
  | map => exact (hplain (Ty.hereditary_plain.mapTy hexpected hchildren) heventual).elim
  | array | tuple =>
    exact (hplain (Ty.hereditary_plain.listTy hexpected hchildren) heventual).elim
  | access => exact .inl heventual
  | @call _ _ _ builtin args =>
    have hcall := isEventual_of_eventualIf
      (Ty.hereditary_plain.callTy hchildren) heventual
    rw [Bool.or_eq_true, Bound.Expr.someContainEventual_eq] at hcall
    exact hcall.imp id List.any_eq_true.mp
  | invoke => exact .inl rfl
  | @conditional _ _ _ _ c a r =>
    refine .inr ?_
    by_cases hc : c.containsEventual = true
    · exact ⟨c, by simp [children], hc⟩
    · -- Then the type is the join of the branches, eventual only through one of them.
      rw [Bound.Expr.ty, if_neg hc] at heventual
      have hcontains : ∀ {expr : Bound.Expr}, expr.ty.isEventual = true →
          expr.containsEventual = true := by
        intro expr hexpr
        rw [Bound.Expr.containsEventual_eq, hexpr, Bool.true_or]
      rcases Ty.isEventual_of_join (hchildren a (by simp [children]))
        (hchildren r (by simp [children])) heventual with ha | hr
      · exact ⟨a, by simp [children], hcontains ha⟩
      · exact ⟨r, by simp [children], hcontains hr⟩
  | binary =>
    have hoperands := isEventual_of_eventualIf
      (hereditary_operationTy Ty.hereditary_plain _ _ _) heventual
    exact .inr (by simpa [children] using hoperands)
  | unary =>
    have hoperand := isEventual_of_eventualIf
      (hereditary_negationTy Ty.hereditary_plain _ _) heventual
    exact .inr (by simpa [children] using hoperand)
  | @index _ _ _ c k _ =>
    have hcollection := hchildren c (by simp [children])
    have hparts := isEventual_of_eventualIf
      (hereditary_elementTy Ty.hereditary_plain hcollection) heventual
    exact .inr (by simpa [children] using hparts)

end

end

end Provision.Binding
