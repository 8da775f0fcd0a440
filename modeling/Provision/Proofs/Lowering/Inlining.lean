import Provision.Proofs.Lookup
import Provision.Proofs.Lowering.Captures
import Provision.Proofs.Program
import Provision.Proofs.Ty.Order

/-!
# Lowering keeps the meaning of a program

`inline` undoes an apply: it puts the arguments back for the placeholders of the body. Inlining the
applies of a lowered program gives the program back, up to the types on expressions and the sign of
zeros.
-/

namespace Provision.Bound

namespace Expr

def fillTop (binding : List (String × Expr)) : Expr → Expr
  | .placeholder name ty => (binding.lookup name).getD (.placeholder name ty)
  | expr => expr

def fill (binding : List (String × Expr)) : Expr → Expr := transform (fillTop binding)

def inlineTop : Expr → Expr
  | .apply args params body _ => body.fill (params.zip args)
  | expr => expr

def inline : Expr → Expr := transform inlineTop

def forgetTop (expr : Expr) : Expr := expr.unsignTop.withTy .any

/-- Forgets the types of all parts and the sign of every zero. The types of slots stay. -/
def forget : Expr → Expr := transform forgetTop

theorem fill_eq (binding : List (String × Expr)) (whole : Expr) :
    whole.fill binding = fillTop binding (whole.mapChildren (fill binding)) :=
  transform_eq _ whole

theorem inline_eq (whole : Expr) : whole.inline = inlineTop (whole.mapChildren inline) :=
  transform_eq _ whole

theorem forget_eq (whole : Expr) : whole.forget = forgetTop (whole.mapChildren forget) :=
  transform_eq _ whole

@[simp] theorem unsignTop_mapChildren (f : Expr → Expr) (whole : Expr) :
    (whole.mapChildren f).unsignTop = whole.unsignTop.mapChildren f := by
  cases whole <;> rfl

@[simp] theorem unsignTop_withTy (ty : Ty) (whole : Expr) :
    (whole.withTy ty).unsignTop = whole.unsignTop.withTy ty := by
  cases whole <;> rfl

@[simp] theorem forgetTop_withTy (ty : Ty) (whole : Expr) :
    (whole.withTy ty).forgetTop = whole.forgetTop := by
  simp [forgetTop]

@[simp] theorem unsignTop_unsignTop (whole : Expr) :
    whole.unsignTop.unsignTop = whole.unsignTop := by
  cases whole with
  | literal value ty => cases value <;> simp [unsignTop, Literal.unsigned]
  | _ => rfl

theorem forget_unsigned (whole : Expr) : whole.unsigned.forget = whole.forget := by
  induction whole with
  | step whole ih =>
    rw [forget_eq, unsigned_eq, forget_eq whole]
    simp only [forgetTop, unsignTop_mapChildren, unsignTop_unsignTop, mapChildren_mapChildren]
    congr 1
    apply mapChildren_congr
    intro child hchild
    exact ih child (by simpa using hchild)

theorem fillTop_of_isSource {binding : List (String × Expr)} {expr : Expr}
    (h : expr.isSource = true) : fillTop binding expr = expr := by
  cases expr <;> simp_all [isSource, fillTop]

theorem inlineTop_of_isSource {expr : Expr} (h : expr.isSource = true) : inlineTop expr = expr := by
  cases expr <;> simp_all [isSource, inlineTop]

@[simp] theorem isSource_mapChildren (f : Expr → Expr) (whole : Expr) :
    (whole.mapChildren f).isSource = whole.isSource := by
  cases whole <;> rfl

@[simp] theorem isSource_withTy (ty : Ty) (whole : Expr) :
    (whole.withTy ty).isSource = whole.isSource := by
  cases whole <;> rfl

def Source (whole : Expr) : Prop := ∀ part ∈ whole.subexprs, part.isSource = true

instance (whole : Expr) : Decidable whole.Source :=
  inferInstanceAs (Decidable (∀ part ∈ whole.subexprs, part.isSource = true))

namespace Source

variable {whole : Expr}

theorem isSource (h : whole.Source) : whole.isSource = true :=
  h whole (self_mem_subexprs whole)

theorem of_mem {part : Expr} (h : whole.Source) (hpart : part ∈ whole.subexprs) : part.Source :=
  fun _ hinner => h _ (mem_subexprs_trans hinner hpart)

theorem child {child : Expr} (h : whole.Source) (hchild : child ∈ whole.children) : child.Source :=
  h.of_mem (mem_subexprs_of_child hchild (self_mem_subexprs child))

theorem inline_eq_self (h : whole.Source) : whole.inline = whole := by
  induction whole with
  | step whole ih =>
    have hchildren : whole.mapChildren inline = whole :=
      mapChildren_eq_self fun child hchild => ih child hchild (h.child hchild)
    rw [inline_eq, hchildren, inlineTop_of_isSource h.isSource]

end Source

end Expr

end Provision.Bound

namespace Provision.Lowering

open Provision.Bound (Slot)

section Body

variable {captures : List Bound.Expr} {params : List String} {expr : Bound.Expr}

theorem substitute_cases (captures : List Bound.Expr) (params : List String)
    (hsource : expr.isSource = true) :
    (∃ position : Nat, ∃ param, ∃ capture : Bound.Expr, captures[position]? = some capture ∧
      params[position]? = some param ∧ capture.unsigned = expr.unsigned ∧
      substitute captures params expr = .placeholder param expr.ty.withoutEventual) ∨
    substitute captures params expr =
      (expr.mapChildren (substitute captures params)).withTy expr.ty.withoutEventual := by
  by_cases hcapture : isCapture expr = true
  · cases hparam : parameterOf captures params expr with
    | none => exact .inr (substitute_eq_mapChildren hsource fun _ => hparam)
    | some param =>
      obtain ⟨position, capture, hat, hname, hsame⟩ := parameterOf_eq_some hparam
      exact .inl ⟨position, param, capture, hat, hname, hsame,
        substitute_eq_placeholder hcapture hparam⟩
  · exact .inr (substitute_eq_mapChildren hsource fun h => absurd h hcapture)

private theorem inline_substitute (hsource : expr.Source) :
    (substitute captures params expr).inline = substitute captures params expr := by
  induction expr with
  | step expr ih =>
    rcases substitute_cases captures params hsource.isSource with
      ⟨_, _, _, -, -, -, hplaceholder⟩ | hkept
    · rw [hplaceholder, Bound.Expr.inline_eq]
      rfl
    · have hchildren : expr.mapChildren (fun child => (substitute captures params child).inline) =
          expr.mapChildren (substitute captures params) :=
        Bound.Expr.mapChildren_congr fun child hchild => ih child hchild (hsource.child hchild)
      rw [hkept, Bound.Expr.inline_eq, Bound.Expr.mapChildren_withTy,
        Bound.Expr.mapChildren_mapChildren, hchildren, Bound.Expr.inlineTop_of_isSource]
      simpa using hsource.isSource

private theorem forget_fill_substitute (hnodup : params.Nodup) (hsource : expr.Source) :
    ((substitute captures params expr).fill (params.zip captures)).forget = expr.forget := by
  induction expr with
  | step expr ih =>
    rcases substitute_cases captures params hsource.isSource with
      ⟨position, param, capture, hcapture, hparam, hsame, hplaceholder⟩ | hkept
    · have hlookup := lookup_zip hnodup hparam hcapture
      have hfill : (substitute captures params expr).fill (params.zip captures) = capture := by
        rw [hplaceholder, Bound.Expr.fill_eq]
        simp [Bound.Expr.mapChildren, Bound.Expr.fillTop, hlookup]
      rw [hfill, ← Bound.Expr.forget_unsigned, hsame, Bound.Expr.forget_unsigned]
    · rw [hkept, Bound.Expr.fill_eq, Bound.Expr.mapChildren_withTy,
        Bound.Expr.mapChildren_mapChildren, Bound.Expr.fillTop_of_isSource
          (by simpa using hsource.isSource), Bound.Expr.forget_eq, Bound.Expr.forget_eq expr,
        Bound.Expr.mapChildren_withTy, Bound.Expr.mapChildren_mapChildren,
        Bound.Expr.forgetTop_withTy]
      congr 1
      apply Bound.Expr.mapChildren_congr
      intro child hchild
      exact ih child hchild (hsource.child hchild)

end Body

private theorem forget_inline_lift {expr : Bound.Expr} (hsource : expr.Source) :
    (lift expr).inline.forget = expr.forget := by
  have hcaptures : (collect [] expr).map Bound.Expr.inline = collect [] expr := by
    refine (List.map_congr_left ?_).trans (List.map_id _)
    intro capture hcapture
    have hcaptured := captured_of_mem_collect hcapture
    exact (hsource.of_mem hcaptured.mem_subexprs).inline_eq_self
  rw [lift, Bound.Expr.inline_eq]
  simp only [Bound.Expr.mapChildren, Bound.Expr.inlineTop, hcaptures, inline_substitute hsource]
  exact forget_fill_substitute (nodup_parameterNames _ _) hsource

private theorem forget_inline_lowerInput {expr : Bound.Expr} (hsource : expr.Source) :
    (lowerInput expr).inline.forget = expr.forget := by
  induction expr with
  | step expr ih =>
    rcases lowerInput_cases expr with ⟨-, -, heq⟩ | ⟨-, heq⟩ | heq <;> rw [heq]
    · exact forget_inline_lift hsource
    · rw [Bound.Expr.inline_eq, Bound.Expr.mapChildren_mapChildren,
        Bound.Expr.inlineTop_of_isSource (by simpa using hsource.isSource), Bound.Expr.forget_eq,
        Bound.Expr.forget_eq expr, Bound.Expr.mapChildren_mapChildren]
      congr 1
      apply Bound.Expr.mapChildren_congr
      intro child hchild
      exact ih child hchild (hsource.child hchild)
    · rw [hsource.inline_eq_self]

/-- A lowered program with its applies inlined is the program that was lowered, in every
declaration and in every field of it. -/
theorem forget_inline_lower (program : Bound.Program)
    (hsource : ∀ expr ∈ program.expressions, expr.Source) :
    ((lower program).map Bound.Expr.inline).map Bound.Expr.forget =
      program.map Bound.Expr.forget := by
  rw [lower_eq_map, Bound.Program.map_map, Bound.Program.map_map]
  apply Bound.Program.map_congr
  intro expr hexpr
  exact forget_inline_lowerInput (hsource expr hexpr)

def repeatedReads : Bound.Program :=
  let id : Bound.Expr :=
    .access ⟨"bucket", .resource "aws:s3:Bucket", [.field "id"]⟩ (.eventual .string)
  let hidden (negative : Bool) : Bound.Expr :=
    .call .secret [.literal (.number (.zero negative)) .number] (.eventual .number)
  ⟨[⟨"label", .variable (.template
    [.text "a-", .expr id, .expr (hidden false), .expr id, .expr (hidden true)]
    (.eventual .string))⟩]⟩

theorem forget_inline_lower_repeatedReads :
    (∀ expr ∈ repeatedReads.expressions, expr.Source) ∧
      ((lower repeatedReads).map Bound.Expr.inline).map Bound.Expr.forget =
        repeatedReads.map Bound.Expr.forget :=
  ⟨by decide, forget_inline_lower repeatedReads (by decide)⟩

/-! ## Copies -/

/-- An expression stands with other values in it, or a parameter stands for it, or an apply over its
eventual readings does. -/
inductive Copies : Bound.Expr → Bound.Expr → Prop
  | node {expr : Bound.Expr} (f : Bound.Expr → Bound.Expr) {ty : Ty} :
      ty.resolved = expr.ty.resolved → (∀ child ∈ expr.children, Copies child (f child)) →
        Copies expr ((expr.mapChildren f).withTy ty)
  | parameter {expr : Bound.Expr} {name : String} {ty : Ty} :
      ty.resolved = expr.ty.resolved → Copies expr (.placeholder name ty)
  | apply {expr body : Bound.Expr} {args : List Bound.Expr} {params : List String} {ty : Ty} :
      ty.resolved = expr.ty.resolved → (∀ arg ∈ args, arg ∈ expr.subexprs) →
      (∀ arg ∈ args, Copies arg arg) → Copies expr body → Copies expr (.apply args params body ty)

theorem Copies.resolved_ty {expr copy : Bound.Expr} (h : Copies expr copy) :
    copy.ty.resolved = expr.ty.resolved := by
  cases h with
  | node f hty => simpa using hty
  | parameter hty => exact hty
  | apply hty => exact hty

theorem Copies.error_inv {expr : Bound.Expr} {ty : Ty} (h : Copies expr (.error ty)) :
    ∃ own, expr = .error own := by
  generalize hcopy : Bound.Expr.error ty = copy at h
  cases h with
  | node f =>
    cases expr with
    | error own => exact ⟨own, rfl⟩
    | _ => cases hcopy
  | parameter | apply => cases hcopy

theorem copies_mapChildren {expr : Bound.Expr} {f : Bound.Expr → Bound.Expr}
    (h : ∀ child ∈ expr.children, Copies child (f child)) : Copies expr (expr.mapChildren f) := by
  have heq : (expr.mapChildren f).withTy expr.ty = expr.mapChildren f := by cases expr <;> rfl
  exact heq ▸ .node f rfl h

theorem copies_self (expr : Bound.Expr) : Copies expr expr := by
  induction expr with
  | step expr ih => simpa using copies_mapChildren ih

section

variable {expr : Bound.Expr} (hsource : expr.Source)

include hsource

private theorem copies_substitute (captures : List Bound.Expr) (params : List String) :
    Copies expr (substitute captures params expr) := by
  induction expr with
  | step expr ih =>
    rcases substitute_cases captures params hsource.isSource with
      ⟨_, _, _, -, -, -, heq⟩ | heq <;> rw [heq]
    · exact .parameter (Ty.resolved_withoutEventual expr.ty)
    · refine .node _ (Ty.resolved_withoutEventual expr.ty) fun child hchild => ?_
      exact ih child hchild (hsource.child hchild)

private theorem copies_lift : Copies expr (lift expr) := by
  have hbody := copies_substitute hsource (collect [] expr)
    (parameterNames expr.referencedRoots (collect [] expr))
  refine .apply ?_ (fun arg harg => ?_) (fun arg _ => copies_self arg) hbody
  · rw [Ty.resolved_mkEventual, hbody.resolved_ty]
  · exact (captured_of_mem_collect harg).mem_subexprs

theorem copies_lowerInput : Copies expr (lowerInput expr) := by
  induction expr with
  | step expr ih =>
    rcases lowerInput_cases expr with ⟨-, -, heq⟩ | ⟨-, heq⟩ | heq <;> rw [heq]
    · exact copies_lift hsource
    · exact copies_mapChildren fun child hchild => ih child hchild (hsource.child hchild)
    · exact copies_self expr

end

end Provision.Lowering
