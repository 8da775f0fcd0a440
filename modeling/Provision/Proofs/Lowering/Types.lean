import Provision.Proofs.Lowering.Applies
import Provision.Proofs.Lowering.Fixpoints
import Provision.Proofs.Resolution

/-!
# Types after lowering

Lowering looks at every part of an expression to decide whether it is lifted, while binding works
out the type of an expression from what stands directly under it. The two agree but for
conditionals: the type of a conditional is that of its branches, and a list, a map or a struct in a
branch does not show that it holds something eventual. Such a conditional is typed as plain and
becomes eventual when it is lowered. Everything else at an input keeps its type, and a variable is
read at the type that it has after lowering unless it holds such a conditional.
-/

namespace Provision.Bound.Expr

/-- Whether an expression is a conditional with something eventual in a branch which neither its
condition nor its type shows. -/
def hidesEventual : Expr → Bool
  | .conditional condition accepted rejected ty =>
    !condition.containsEventual && (accepted.containsEventual || rejected.containsEventual)
      && !ty.isEventual && ty != .error
  | _ => false

theorem needsApply_of_hidesEventual {whole : Expr} (h : whole.hidesEventual = true) :
    whole.NeedsApply := by
  rw [needsApply_iff]
  cases whole with
  | conditional condition accepted rejected ty =>
    simp only [hidesEventual, Bool.and_eq_true, Bool.or_eq_true] at h
    refine ⟨rfl, ?_⟩
    rcases h.1.1.2 with haccepted | hrejected
    · simp [containsEventual, haccepted]
    · simp [containsEventual, hrejected]
  | _ => cases h

theorem ty_of_hidesEventual {whole : Expr} (h : whole.hidesEventual = true) :
    whole.ty.isEventual = false ∧ whole.ty ≠ .error := by
  cases whole with
  | conditional condition accepted rejected ty =>
    simp only [hidesEventual, Bool.and_eq_true, Bool.not_eq_true', bne_iff_ne] at h
    exact ⟨h.1.2, h.2⟩
  | _ => cases h

/-- What stands at a place, given by the positions on the way down through what passes values
on. -/
def inputAt (whole : Expr) : List Nat → Option Expr
  | [] => some whole
  | position :: rest =>
    if whole.passes then whole.children[position]?.bind fun child => child.inputAt rest else none

theorem atInput_of_inputAt {part whole : Expr} {place : List Nat}
    (h : whole.inputAt place = some part) : AtInput part whole := by
  induction place generalizing whole with
  | nil =>
    obtain rfl := Option.some.inj h
    exact .self
  | cons position rest ih =>
    rw [inputAt] at h
    split at h
    · next hpasses =>
      obtain ⟨child, hchild, hpart⟩ := Option.bind_eq_some_iff.mp h
      exact .under hpasses (List.mem_of_getElem? hchild) (ih hpart)
    · contradiction

end Provision.Bound.Expr

namespace Provision.Binding

theorem eventualIf_true_cases (ty : Ty) :
    (eventualIf true ty).isEventual = true ∨ eventualIf true ty = .error := by
  rw [eventualIf, if_pos rfl]
  cases ty.withoutEventual <;> simp [Ty.mkEventual, Ty.isEventual]

theorem eventualIf_true_of_isEventual {ty : Ty} (hflat : ty.flat = true)
    (hty : ty ≠ .eventual .error) (heventual : ty.isEventual = true) : eventualIf true ty = ty := by
  obtain ⟨inner, rfl⟩ := Ty.exists_eventual heventual
  have hinner := Ty.isEventual_of_plain hflat
  cases inner <;> simp_all [eventualIf, Ty.withoutEventual, Ty.mkEventual, Ty.isEventual]

theorem eventualIf_true_of_not_isEventual {ty : Ty} (hplain : ty.isEventual = false)
    (herror : ty ≠ .error) : eventualIf true ty = .eventual ty := by
  rw [eventualIf, if_pos rfl, Ty.withoutEventual_eq_self hplain]
  cases ty <;> simp_all [Ty.mkEventual, Ty.isEventual]

theorem eventualIf_ne_eventual_error {ty : Ty} {eventual : Bool} (hflat : ty.flat = true)
    (hty : ty.isEventual = true → eventual = true) : eventualIf eventual ty ≠ .eventual .error := by
  cases eventual with
  | true => exact Ty.mkEventual_ne_eventual_error (Ty.isEventual_of_plain hflat)
  | false =>
    rintro heq
    rw [eventualIf, if_neg Bool.false_ne_true] at heq
    simp [heq, Ty.isEventual] at hty

section

variable {registry : Schema.Registry} {symbols : Symbols} {known : Nat → Ty → Prop}
  {reported : Diagnostic → Prop} {expected : Ty} {declared : Expr} {bound : Bound.Expr}
  (h : Shape registry symbols known reported expected declared bound)

include h

theorem Shape.ty_ne_eventual_error (hexpected : expected.bare = true)
    (hknown : ∀ position ty, known position ty → ty.flat = true)
    (hflat : ∀ child ∈ bound.children, child.ty.flat = true)
    (hchildren : ∀ child ∈ bound.children, child.ty ≠ .eventual .error) :
    bound.ty ≠ .eventual .error := by
  have hplain : ∀ {ty : Ty}, ty.plain = true → ty ≠ .eventual .error := by
    rintro _ hty rfl
    cases hty
  have heventualIf : ∀ {ty : Ty} (eventual : Bool), ty.plain = true →
      eventualIf eventual ty ≠ .eventual .error := by
    intro ty eventual hty
    refine eventualIf_ne_eventual_error (Ty.flat_of_plain hty) fun heventual => ?_
    simp [Ty.isEventual_of_plain hty] at heventual
  cases h with
  | literal hbound =>
    obtain ⟨value, ty, rfl, hty⟩ := exists_literal hbound
    exact hplain (hereditary_literal Ty.hereditary_plain hty)
  | template => exact heventualIf _ rfl
  | struct | unchecked | wrapped | input | stopped | failed => exact hplain rfl
  | map => exact hplain (Ty.hereditary_plain.mapTy hexpected hflat)
  | array | tuple => exact hplain (Ty.hereditary_plain.listTy hexpected hflat)
  | access hroot =>
    exact eventualIf_ne_eventual_error (flat_walk _ (hroot.flat hknown))
      eventual_of_isEventual_walk
  | call => exact heventualIf _ (Ty.hereditary_plain.callTy hflat)
  | invoke =>
    have hresult := hereditary_functionTy Ty.hereditary_plain
    exact Ty.mkEventual_ne_eventual_error (Ty.isEventual_of_plain (hresult _ _))
  | @conditional _ _ _ _ c a r =>
    simp only [Bound.Expr.children, List.forall_mem_cons] at hflat hchildren
    have hjoin := Ty.join_ne_eventual_error hflat.2.1 hflat.2.2.1 hchildren.2.1 hchildren.2.2.1
    rw [Bound.Expr.ty]
    split
    · rcases Ty.mkEventual_cases (a.ty.join r.ty) with heq | heq <;> rw [heq]
      · exact hjoin
      · rintro herror
        obtain herror := Ty.eventual.inj herror
        simp [herror, Ty.mkEventual] at heq
    · exact hjoin
  | binary => exact heventualIf _ (hereditary_operationTy Ty.hereditary_plain _ _ _)
  | unary => exact heventualIf _ (hereditary_negationTy Ty.hereditary_plain _ _)
  | @index _ _ _ c k _ =>
    have hcollection := hflat c (by simp [Bound.Expr.children])
    exact heventualIf _ (hereditary_elementTy Ty.hereditary_plain hcollection)

/-- Among the expressions that compute, only a conditional has a plain type although something in
it is eventual. -/
theorem Shape.hidesEventual (hneeds : bound.NeedsApply) (hplain : bound.ty.isEventual = false)
    (herror : bound.ty ≠ .error) : bound.hidesEventual = true := by
  obtain ⟨hcomputes, hcontains⟩ := Bound.Expr.needsApply_iff.mp hneeds
  have hbelow := hcontains
  rw [Bound.Expr.containsEventual_eq, hplain, Bool.false_or] at hbelow
  -- A type that is marked whenever something below is eventual would be marked.
  have hreader : ∀ {ty : Ty} {eventual : Bool}, eventual = true →
      bound.ty ≠ eventualIf eventual ty := by
    rintro ty eventual rfl heq
    rcases eventualIf_true_cases ty with heventual | hfailed
    · rw [heq, heventual] at hplain
      contradiction
    · exact herror (heq.trans hfailed)
  cases h with
  | literal hbound =>
    obtain ⟨value, ty, rfl, -⟩ := exists_literal hbound
    cases hcomputes
  | template =>
    refine absurd rfl (hreader ?_)
    rw [Bound.Expr.partsContainEventual_eq]
    exact hbelow
  | call =>
    refine absurd rfl (hreader ?_)
    rw [Bound.Expr.someContainEventual_eq, Bool.or_eq_true]
    exact .inr hbelow
  | binary | unary | index =>
    refine absurd rfl (hreader ?_)
    simpa [Bound.Expr.children] using hbelow
  | @conditional _ _ _ _ c a r =>
    have hcondition : c.containsEventual = false := by
      by_contra hc
      rw [Bound.Expr.ty, if_pos (by simpa using hc)] at hplain herror
      generalize a.ty.join r.ty = joined at hplain herror
      cases joined <;> simp_all [Ty.mkEventual, Ty.isEventual]
    have hbranches : (a.containsEventual || r.containsEventual) = true := by
      simpa [Bound.Expr.children, hcondition] using hbelow
    rw [Bound.Expr.hidesEventual, hcondition, hbranches]
    simp_all [Bound.Expr.ty]
  | _ => cases hcomputes

end

end Provision.Binding

namespace Provision.Lowering

open Provision.Binding (bind eventualIf walk)

private theorem ty_lift {expr : Bound.Expr} (hsource : expr.isSource = true) :
    (lift expr).ty = eventualIf true expr.ty := by
  have hbody : ∀ captures params,
      (substitute captures params expr).ty = expr.ty.withoutEventual := by
    intro captures params
    rcases substitute_cases captures params hsource with ⟨_, _, _, -, -, -, heq⟩ | heq <;> rw [heq]
    · rfl
    · exact Bound.Expr.ty_withTy
  rw [eventualIf, if_pos rfl, ← hbody]
  rfl

theorem inputAt_lowerInput (expr : Bound.Expr) (place : List Nat) :
    (lowerInput expr).inputAt place = (expr.inputAt place).map lowerInput := by
  induction place generalizing expr with
  | nil => rfl
  | cons position rest ih =>
    rw [Bound.Expr.inputAt, Bound.Expr.inputAt, passes_lowerInput]
    split
    · next hpasses =>
      rw [lowerInput_of_passes hpasses, Bound.Expr.children_mapChildren, List.getElem?_map]
      cases expr.children[position]? with
      | none => rfl
      | some child => exact ih child
    · rfl

section

variable {program : Program} {registry : Schema.Registry}

theorem ty_ne_eventual_error {part : Bound.Expr} (h : (bind program registry).1.Within part) :
    part.ty ≠ .eventual .error := by
  obtain ⟨state, outcome⟩ := Binding.exists_outcome program registry
  induction part with
  | step part ih =>
    obtain ⟨subject, site, hevaluates, rfl⟩ := Binding.exists_evaluates h
    obtain ⟨hbare, helaborates⟩ := hevaluates.elaborates outcome
    exact helaborates.shape.ty_ne_eventual_error hbare outcome.consistent.flat_of_known
      (fun child hchild => flat_of_within (h.child hchild))
      fun child hchild => ih child hchild (h.child hchild)

private theorem hidesEventual_of_needsApply {part : Bound.Expr}
    (h : (bind program registry).1.Within part) (hneeds : part.NeedsApply)
    (hplain : part.ty.isEventual = false) (herror : part.ty ≠ .error) :
    part.hidesEventual = true := by
  obtain ⟨state, outcome⟩ := Binding.exists_outcome program registry
  obtain ⟨subject, site, hevaluates, rfl⟩ := Binding.exists_evaluates h
  obtain ⟨-, helaborates⟩ := hevaluates.elaborates outcome
  exact helaborates.shape.hidesEventual hneeds hplain herror

theorem ty_lowerInput {part : Bound.Expr} (h : (bind program registry).1.Within part) :
    (lowerInput part).ty = if part.hidesEventual then .eventual part.ty else part.ty := by
  by_cases hneeds : part.NeedsApply
  · obtain ⟨hcomputes, hcontains⟩ := Bound.Expr.needsApply_iff.mp hneeds
    rw [lowerInput_of_computes hcomputes, if_pos hcontains, ty_lift (source_of_within h).isSource]
    split
    · next hhides =>
      obtain ⟨hplain, herror⟩ := Bound.Expr.ty_of_hidesEventual hhides
      exact Binding.eventualIf_true_of_not_isEventual hplain herror
    · next hshows =>
      by_cases heventual : part.ty.isEventual = true
      · exact Binding.eventualIf_true_of_isEventual (flat_of_within h)
          (ty_ne_eventual_error h) heventual
      · by_cases herror : part.ty = .error
        · rw [herror]
          rfl
        · have hhides := hidesEventual_of_needsApply h hneeds (by simpa using heventual) herror
          contradiction
  · have hshows : part.hidesEventual = false :=
      Bool.eq_false_iff.mpr fun hhides => hneeds (Bound.Expr.needsApply_of_hidesEventual hhides)
    rw [hshows, if_neg Bool.false_ne_true]
    rcases lowerInput_cases part with ⟨hcomputes, hcontains, -⟩ | ⟨-, heq⟩ | heq
    · exact absurd (Bound.Expr.needsApply_iff.mpr ⟨hcomputes, hcontains⟩) hneeds
    · rw [heq, Bound.Expr.ty_mapChildren]
    · rw [heq]

end

/-- A path stands for a variable that has a value and is read at a type, from which the accessors
of the path lead on to the type of the reading. -/
structure ReadsVariable (program : Program) (registry : Schema.Registry) (path : Bound.Path)
    (ty : Ty) (position : Nat) (value : Bound.Expr) (base : Ty) : Prop where
  declared : ∃ name expr, program.declaration? path.root = some (position, .variable name expr)
  bound : ∃ name, (bind program registry).1.nodes[position]? = some ⟨name, .variable value⟩
  walked : ∃ accessors, path.accessors = (walk registry base accessors).accessors ∧
    ty = (walk registry base accessors).result
  typed : base = value.ty ∨ program.Cyclic position ∧ base = .any

private theorem exists_readsVariable {program : Program} {registry : Schema.Registry} {reader : Nat}
    {path : Bound.Path} {ty : Ty} (h : (bind program registry).1.AccessAt reader path ty)
    (hkind : path.kind = .variable) :
    ∃ position value base, ReadsVariable program registry path ty position value base := by
  obtain ⟨state, outcome⟩ := Binding.exists_outcome program registry
  obtain ⟨position, node, base, accessors, hdeclared, hoffers, hwalked⟩ :=
    Binding.exists_offers h (by rw [hkind]; rfl)
  rw [hkind] at hoffers
  cases hoffers with
  | @«variable» name expr _ hread =>
    obtain ⟨bound, hbound, hboundAs⟩ :=
      outcome.exists_bound (Program.getElem?_of_declaration? hdeclared)
    cases hboundAs with
    | @«variable» _ _ value hdone =>
      refine ⟨position, value, base, ⟨name, expr, hdeclared⟩, ⟨name, hbound⟩,
        ⟨accessors, hwalked⟩, ?_⟩
      rcases hread with ⟨other, found, hfound, hty⟩ | hcyclic
      · rw [hbound] at hfound
        obtain ⟨-, hvalue⟩ := Bound.Node.mk.inj (Option.some.inj hfound)
        rw [← hty, Bound.Body.variable.inj hvalue]
        exact .inl rfl
      · exact .inr hcyclic

/-- At each place of a bound program where an input is expected, the lowered program has an
expression of the same type, unless the expression hides something eventual: then it is of the type
deferred. Hence a variable that is read at the type of its value is eventual after lowering just
when its readers were typed so, unless its value hides something eventual. -/
theorem types_lower_bind (program : Program) (registry : Schema.Registry) :
    List.Forall₂ (fun expr lowered => ∀ place, Option.Rel
        (fun original copy : Bound.Expr =>
          copy.ty = if original.hidesEventual then .eventual original.ty else original.ty)
        (expr.inputAt place) (lowered.inputAt place))
      (bind program registry).1.expressions (lower (bind program registry).1).expressions ∧
    ∀ reader path ty, (bind program registry).1.AccessAt reader path ty → path.kind = .variable →
      ∃ position value base lowered,
        ReadsVariable program registry path ty position value base ∧
        (∃ name, (lower (bind program registry).1).nodes[position]? =
          some ⟨name, .variable lowered⟩) ∧
        (base = value.ty →
          (lowered.ty.isEventual = base.isEventual ↔ value.hidesEventual = false)) := by
  constructor
  · rw [lower_eq_map, Bound.Program.expressions_map, List.forall₂_map_right_iff]
    refine List.forall₂_same.mpr fun expr hexpr place => ?_
    rw [inputAt_lowerInput]
    cases hplace : expr.inputAt place with
    | none => exact .none
    | some original =>
      exact .some (ty_lowerInput
        ⟨expr, hexpr, (Bound.Expr.atInput_of_inputAt hplace).mem_subexprs⟩)
  · intro reader path ty haccess hkind
    obtain ⟨position, value, base, hreads⟩ := exists_readsVariable haccess hkind
    obtain ⟨name, hbound⟩ := hreads.bound
    refine ⟨position, value, base, lowerInput value, hreads, ⟨name, ?_⟩, ?_⟩
    · rw [lower, List.getElem?_map, hbound]
      rfl
    · rintro rfl
      have hwithin : (bind program registry).1.Within value :=
        ⟨value, Binding.mem_expressions_of_variable hbound, Bound.Expr.self_mem_subexprs value⟩
      rw [ty_lowerInput hwithin]
      split
      · next hhides =>
        have heventual : (Ty.eventual value.ty).isEventual = true := rfl
        simp [hhides, heventual, (Bound.Expr.ty_of_hidesEventual hhides).1]
      · next hshows => simpa using hshows

/-- A conditional over lists, one of which holds the id of a bucket, and a text that reads it:
`names: if true then [bucket.id] else ["none"]` and `"x-${names[0]}"`. -/
def hiddenBranch : Program :=
  ⟨[.resource "bucket" "aws:s3:Bucket" [] {},
    .variable "names" (.conditional (.literal (.bool true) none)
      (.array [.access ⟨"bucket", [.field "id"]⟩ none] none)
      (.array [.literal (.string "none") none] none) none),
    .output "first" (.template [.text "x-", .expr (.access ⟨"names", [.index 0]⟩ none)] none)]⟩

theorem types_differ_hiddenBranch :
    hasErrors (bind hiddenBranch Binding.bucketRegistry).2 = false ∧
      ∃ value lowered, (bind hiddenBranch Binding.bucketRegistry).1.nodes[1]? =
          some ⟨"names", .variable value⟩ ∧
        (lower (bind hiddenBranch Binding.bucketRegistry).1).nodes[1]? =
          some ⟨"names", .variable lowered⟩ ∧
        value.ty = .list .string ∧ lowered.ty = .eventual (.list .string) ∧
        (bind hiddenBranch Binding.bucketRegistry).1.AccessAt 2 ⟨"names", .variable, [.index 0]⟩
          .string := by
  refine ⟨by decide +kernel, _, _, rfl, rfl, rfl, rfl, ?_⟩
  refine ⟨_, _, rfl, List.mem_singleton.mpr rfl, ?_⟩
  exact Bound.Expr.mem_subexprs_of_child (List.mem_singleton.mpr rfl)
    (Bound.Expr.self_mem_subexprs _)

end Provision.Lowering
