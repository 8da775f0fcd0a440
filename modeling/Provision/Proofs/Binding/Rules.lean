import Provision.Proofs.Binding.Elaboration
import Provision.Proofs.Lowering.Inlining

/-!
# The rules that bound expressions follow

`Rule` says which type each kind of bound expression has, given its children and what is known of
the variables it reads. Whatever elaborates is free of `apply` and placeholders, and unless an error
is reported every part of it follows the rules.
-/

namespace Provision.Binding

section

variable (registry : Schema.Registry) (symbols : Symbols) (allowed : String → Prop)
  (known : Nat → Ty → Prop)

/-- How a part of a bound expression is typed. `allowed` holds of the names that it may read. -/
inductive Rule : Bound.Expr → Prop
  | literal {value : Literal} {ty : Ty} : ty ∈ [Ty.string, .number, .int, .bool, .null] →
      Rule (.literal value ty)
  | template {parts : List (Part Bound.Expr)} :
      Rule (.template parts (eventualIf (Bound.Expr.partsContainEventual parts) .string))
  | struct {entries : List Bound.Member} {token : String} :
      Rule (.object entries (.object token))
  | map {entries : List Bound.Member} {expected : Ty} : expected.bare = true →
      Rule (.object entries (mapTy expected (entries.map Bound.Slot.value)))
  | array {items : List Bound.Expr} {expected : Ty} : expected.bare = true →
      Rule (.array items (listTy expected items))
  | tuple {items : List Bound.Expr} {expected : Ty} : expected.bare = true →
      Rule (.tuple items (listTy expected items))
  | input {root : String} {input : Bound.ProgramInput} :
      Rule (.access ⟨root, .input input, []⟩ .string)
  | access {root : String} {kind : Bound.RootKind} {base : Ty} {accessors : List Accessor} :
      allowed root → Root symbols known root kind base →
      (walk registry base accessors).problem = none →
      Rule (.access ⟨root, kind, (walk registry base accessors).accessors⟩
        (eventualIf (walk registry base accessors).eventual (walk registry base accessors).ty))
  | call {builtin : Builtin} {args : List Bound.Expr} :
      Rule (.call builtin args
        (eventualIf (builtin.returnsEventual || Bound.Expr.someContainEventual args)
          (callTy builtin args)))
  | conditional {condition accepted rejected : Bound.Expr} :
      Rule (.conditional condition accepted rejected
        (if condition.containsEventual then (accepted.ty.join rejected.ty).mkEventual
          else accepted.ty.join rejected.ty))
  | binary {op : BinaryOp} {left right : Bound.Expr} {ty : Ty} :
      ty ∈ [Ty.bool, .string, .int, .number] →
      Rule (.binary op left right
        (eventualIf (left.containsEventual || right.containsEventual) ty))
  | unary {op : UnaryOp} {operand : Bound.Expr} {ty : Ty} : ty ∈ [Ty.bool, .int, .number] →
      Rule (.unary op operand (eventualIf operand.containsEventual ty))
  | index {collection key : Bound.Expr} {ty : Ty} : elementTy collection.ty = some ty →
      Rule (.index collection key
        (eventualIf (collection.containsEventual || key.containsEventual) ty))
  | invoke {token : String} {args : List Bound.Member} {field : Option String}
      {reads : Bool} {result : Ty} : result.bare = true →
      Rule (.invoke token args field reads result.mkEventual)

end

section

variable {registry : Schema.Registry} {symbols : Symbols} {allowed allowed' : String → Prop}
  {known known' : Nat → Ty → Prop}
  (hknown : ∀ root position name value ty,
    symbols.lookup root = some (position, .variable name value) → known position ty →
      known' position ty)

include hknown

theorem Rule.mono (hallowed : ∀ root, allowed root → allowed' root) {part : Bound.Expr}
    (h : Rule registry symbols allowed known part) :
    Rule registry symbols allowed' known' part := by
  cases h with
  | access hroot hbase hwalk => exact .access (hallowed _ hroot) (hbase.mono hknown) hwalk
  | literal h => exact .literal h
  | template => exact .template
  | struct => exact .struct
  | map h => exact .map h
  | array h => exact .array h
  | tuple h => exact .tuple h
  | input => exact .input
  | call => exact .call
  | conditional => exact .conditional
  | binary h => exact .binary h
  | unary h => exact .unary h
  | index h => exact .index h
  | invoke h => exact .invoke h

end

structure Sound (registry : Schema.Registry) (symbols : Symbols) (allowed : String → Prop)
    (known : State → Nat → Ty → Prop) (state : State) (expr : Bound.Expr) : Prop where
  source : expr.Source
  rules : hasErrors state.diagnostics = false → ∀ part ∈ expr.subexprs,
    Rule registry symbols allowed (known state) part

theorem mem_of_operationTy {op : BinaryOp} {left right ty : Ty}
    (h : operationTy op left right = some ty) : ty ∈ [Ty.bool, .string, .int, .number] := by
  unfold operationTy arithmeticTy at h
  split_ifs at h <;> cases h <;> simp

theorem bare_of_functionTy {schema : Option Schema.Function} {field : Option String} {ty : Ty}
    (h : functionTy schema field = some ty) : ty.bare = true := by
  unfold functionTy at h
  split at h
  · obtain ⟨output, -, rfl⟩ := Option.map_eq_some_iff.mp h
    exact output.bare_toTy
  · cases h
    rfl

section

variable {registry : Schema.Registry} {symbols : Symbols} {allowed : String → Prop}
  {known : Nat → Ty → Prop} {reported : Diagnostic → Prop} {expected : Ty} {declared : Expr}
  {bound : Bound.Expr}

theorem Shape.isSource (h : Shape registry symbols known reported expected declared bound) :
    bound.isSource = true := by
  cases h with
  | literal hbound =>
    obtain ⟨value, ty, rfl, -⟩ := exists_literal hbound
    rfl
  | _ => rfl

theorem Shape.rule (hexpected : expected.bare = true)
    (hroots : ∀ root ∈ declared.roots, allowed root) (hclean : ¬ Failing reported)
    (h : Shape registry symbols known reported expected declared bound) :
    Rule registry symbols allowed known bound := by
  cases h with
  | literal hbound =>
    obtain ⟨value, ty, rfl, hty⟩ := exists_literal hbound
    exact .literal hty
  | template => exact .template
  | struct | unchecked | wrapped => exact .struct
  | map => exact .map hexpected
  | array => exact .array hexpected
  | tuple => exact .tuple hexpected
  | input => exact .input
  | access hroot hwalk => exact .access (hroots _ (by simp [Expr.roots, Expr.leaves])) hroot hwalk
  | call => exact .call
  | invoke _ _ _ hresult =>
    obtain ⟨ty, hty⟩ := Option.ne_none_iff_exists'.mp fun hnone => hclean (hresult hnone)
    rw [hty]
    exact .invoke (bare_of_functionTy hty)
  | conditional => exact .conditional
  | binary hoperation =>
    obtain ⟨ty, hty⟩ := Option.ne_none_iff_exists'.mp fun hnone => hclean (hoperation hnone)
    rw [hty]
    exact .binary (mem_of_operationTy hty)
  | @unary op =>
    refine .unary ?_
    cases op with
    | not => simp [negationTy]
    | negate =>
      simp only [negationTy]
      split <;> simp
  | index helement =>
    obtain ⟨ty, hty⟩ := Option.ne_none_iff_exists'.mp fun hnone => hclean (helement hnone)
    rw [hty]
    exact .index hty
  | stopped _ _ hfailed | failed hfailed => exact absurd hfailed hclean

theorem Elaborates.sound {known : State → Nat → Ty → Prop} {state : State} {subject : String}
    (hexpected : expected.bare = true) (hroots : ∀ root ∈ declared.roots, allowed root)
    (h : Elaborates registry symbols (known state) (state.Reported subject) expected declared
      bound) :
    Sound registry symbols allowed known state bound := by
  induction h with
  | @node expected declared bound hshape _ _ ih =>
    have hchild : ∀ child ∈ bound.children, Sound registry symbols allowed known state child := by
      intro child hchild
      obtain ⟨site, hsite, rfl⟩ := hshape.exists_site hchild
      refine ih site hsite (hshape.bare_slot hexpected hsite) fun root hroot => hroots root ?_
      rcases declared_of_mem_sites hsite with hself | hunder
      · exact hself ▸ hroot
      · exact Expr.leaves_of_child hunder hroot
    constructor
    · exact Bound.Expr.forall_mem_subexprs.mpr
        ⟨hshape.isSource, fun child hmem => (hchild child hmem).source⟩
    · intro hclean
      refine Bound.Expr.forall_mem_subexprs.mpr
        ⟨hshape.rule hexpected hroots fun hfailing => ?_,
          fun child hmem => (hchild child hmem).rules hclean⟩
      simp [hfailing.hasErrors] at hclean

end

end Provision.Binding
