import Provision.Proofs.Binding.Rules

/-!
# The types of bound expressions

Every type that the rules give is tidy, so whether a value is eventual shows on the outside of its
type only. An access is eventual when the value it starts from is, or when it reads on from a
resource: one that it starts at or one that it meets on the way.
-/

namespace Provision.Binding

variable {next : Ty} {accessor normal : Accessor}

theorem stepResource_ok {registry : Schema.Registry} {token : String}
    (h : stepResource registry token accessor = .ok (normal, next)) :
    normal = accessor ∧ ∃ inner, next = .eventual inner ∧ inner.bare = true := by
  unfold stepResource at h
  split at h
  · split at h
    · cases h
      exact ⟨rfl, .string, rfl, rfl⟩
    · split at h
      · cases h
        exact ⟨rfl, .any, rfl, rfl⟩
      · split at h
        · next property _ =>
          cases h
          have hbare := property.bare_toTy
          exact ⟨rfl, property.toTy, Ty.mkEventual_of_bare hbare, hbare⟩
        · cases h
  · cases h

theorem stepStruct_ok {registry : Schema.Registry} {token name : String}
    (h : stepStruct registry token name accessor = .ok (normal, next)) :
    normal = accessor ∧ next.bare = true := by
  unfold stepStruct at h
  split at h
  · cases h
    exact ⟨rfl, rfl⟩
  · split at h
    · next property _ =>
      cases h
      exact ⟨rfl, property.bare_toTy⟩
    · cases h

variable {current : Ty} {registry : Schema.Registry}

private theorem stepValue_ok (hcurrent : current.bare = true)
    (h : stepValue registry current accessor = .ok (normal, next)) :
    next.bare = true ∧ stepValue registry current normal = .ok (normal, next) := by
  have hself := h
  unfold stepValue at h
  split at h
  · cases h
    exact ⟨rfl, hself⟩
  · simp [Ty.bare] at hcurrent
  · cases h
    exact ⟨rfl, hself⟩
  · obtain ⟨rfl, hnext⟩ := stepStruct_ok h
    exact ⟨hnext, hself⟩
  · obtain ⟨rfl, hnext⟩ := stepStruct_ok h
    exact ⟨hnext, hself⟩
  · cases h
    exact ⟨hcurrent, rfl⟩
  · cases h
    exact ⟨hcurrent, rfl⟩
  · cases h
    exact ⟨hcurrent, hself⟩
  · cases h

theorem step_of_not_resource (accessor : Accessor) (h : ∀ token, current ≠ .resource token) :
    step registry current accessor = stepValue registry current.resolved accessor := by
  cases current with
  | resource token => exact absurd rfl (h token)
  | _ => rfl

def meetsHandle (registry : Schema.Registry) : Ty → List Accessor → Bool
  | _, [] => false
  | .resource _, _ :: _ => true
  | current, accessor :: rest =>
    match step registry current accessor with
    | .ok (_, next) => meetsHandle registry next rest
    | .error _ => false

theorem meetsHandle_step {rest : List Accessor} (h : ∀ token, current ≠ .resource token)
    (hstep : step registry current accessor = .ok (normal, next)) :
    meetsHandle registry current (accessor :: rest) = meetsHandle registry next rest := by
  cases current with
  | resource token => exact absurd rfl (h token)
  | _ => simp [meetsHandle, hstep]

/-- A walk without a problem ends in a tidy type. It is eventual where it starts or where it meets
a resource, and its accessors in their normal forms take the same way. -/
theorem walk_ok {accessors : List Accessor} (hcurrent : current.tidy = true)
    (h : (walk registry current accessors).problem = none) :
    (walk registry current accessors).ty.tidy = true ∧
      (walk registry current accessors).eventual =
        (current.isEventual || meetsHandle registry current accessors) ∧
      meetsHandle registry current (walk registry current accessors).accessors =
        meetsHandle registry current accessors := by
  induction accessors generalizing current with
  | nil => simp [walk, meetsHandle, hcurrent]
  | cons accessor rest ih =>
    cases hstep : step registry current accessor with
    | error message => simp [walk, hstep] at h
    | ok result =>
      obtain ⟨normal, next⟩ := result
      simp only [walk, hstep] at h ⊢
      by_cases hresource : ∃ token, current = .resource token
      · obtain ⟨token, rfl⟩ := hresource
        obtain ⟨rfl, inner, rfl, hinner⟩ := stepResource_ok hstep
        have hnext : (Ty.eventual inner).tidy = true := hinner
        obtain ⟨hty, heventual, -⟩ := ih hnext h
        refine ⟨hty, ?_, rfl⟩
        rw [heventual]
        rfl
      · have hvalue : ∀ token, current ≠ .resource token :=
          fun token htoken => hresource ⟨token, htoken⟩
        have hplain := hstep
        rw [step_of_not_resource accessor hvalue] at hplain
        obtain ⟨hnext, hnormal⟩ := stepValue_ok (Ty.closed_bare.resolved hcurrent) hplain
        rw [← step_of_not_resource normal hvalue] at hnormal
        obtain ⟨hty, heventual, hmeets⟩ := ih (Ty.tidy_of_bare hnext) h
        refine ⟨hty, ?_, ?_⟩
        · rw [heventual, meetsHandle_step hvalue hstep, Ty.isEventual_of_bare hnext,
            Bool.false_or]
        · rw [meetsHandle_step hvalue hnormal, meetsHandle_step hvalue hstep, hmeets]

theorem eventual_of_isEventual_walk {accessors : List Accessor}
    (h : (walk registry current accessors).ty.isEventual = true) :
    (walk registry current accessors).eventual = true := by
  induction accessors generalizing current with
  | nil => exact h
  | cons accessor rest ih =>
    cases hstep : step registry current accessor with
    | error message => simp [walk, hstep, Ty.isEventual] at h
    | ok result =>
      simp only [walk, hstep, Bool.or_eq_true] at h ⊢
      exact .inr (ih h)

theorem tidy_conditional (condition : Bound.Expr) {accepted rejected : Bound.Expr}
    (haccepted : accepted.ty.tidy = true) (hrejected : rejected.ty.tidy = true) :
    (if condition.containsEventual then (accepted.ty.join rejected.ty).mkEventual
      else accepted.ty.join rejected.ty).tidy = true ∧
    (if condition.containsEventual then (accepted.ty.join rejected.ty).mkEventual
      else accepted.ty.join rejected.ty).isEventual =
        (condition.containsEventual || accepted.ty.isEventual || rejected.ty.isEventual) := by
  obtain ⟨htidy, heventual⟩ := Ty.tidy_join haccepted hrejected
  cases condition.containsEventual with
  | true => simpa using Ty.tidy_mkEventual htidy
  | false => simpa using ⟨htidy, heventual⟩

section

variable {registry : Schema.Registry} {symbols : Symbols} {allowed : String → Prop}
  {known : Nat → Ty → Prop} (hknown : ∀ position ty, known position ty → ty.tidy = true)

include hknown

theorem Root.tidy {root : String} {kind : Bound.RootKind} {base : Ty}
    (h : Root symbols known root kind base) : base.tidy = true := by
  cases h with
  | config => exact Ty.tidy_of_bare (bare_configTy _)
  | resource => rfl
  | «variable» _ hty => exact hknown _ _ hty

theorem Rule.tidy {part : Bound.Expr} (h : Rule registry symbols allowed known part)
    (hchildren : ∀ child ∈ part.children, child.ty.tidy = true) : part.ty.tidy = true := by
  cases h with
  | literal h =>
    simp only [List.mem_cons, List.not_mem_nil, or_false] at h
    rcases h with rfl | rfl | rfl | rfl | rfl <;> rfl
  | template => exact (tidy_eventualIf _ rfl).1
  | struct => rfl
  | map hexpected => exact Ty.tidy_of_bare (Ty.closed_bare.mapTy hexpected hchildren)
  | array hexpected | tuple hexpected =>
    exact Ty.tidy_of_bare (Ty.closed_bare.listTy hexpected hchildren)
  | input => rfl
  | access _ hroot hwalk => exact (tidy_eventualIf _ (walk_ok (hroot.tidy hknown) hwalk).1).1
  | call => exact (tidy_eventualIf _ (Ty.tidy_of_bare (Ty.closed_bare.callTy hchildren))).1
  | @conditional condition accepted rejected =>
    exact (tidy_conditional condition (hchildren accepted (by simp [Bound.Expr.children]))
      (hchildren rejected (by simp [Bound.Expr.children]))).1
  | binary h =>
    simp only [List.mem_cons, List.not_mem_nil, or_false] at h
    rcases h with rfl | rfl | rfl | rfl <;> exact (tidy_eventualIf _ rfl).1
  | unary h =>
    simp only [List.mem_cons, List.not_mem_nil, or_false] at h
    rcases h with rfl | rfl | rfl <;> exact (tidy_eventualIf _ rfl).1
  | @index collection key ty h =>
    have hcollection := hchildren collection (by simp [Bound.Expr.children])
    exact (tidy_eventualIf _ (Ty.tidy_of_bare (Ty.closed_bare.elementTy hcollection h))).1
  | invoke h =>
    rw [Bound.Expr.ty, Ty.mkEventual_of_bare h]
    exact h

theorem tidy_of_rules {whole : Bound.Expr}
    (hrules : ∀ part ∈ whole.subexprs, Rule registry symbols allowed known part) :
    ∀ part ∈ whole.subexprs, part.ty.tidy = true := by
  induction whole with
  | step whole ih =>
    obtain ⟨hrule, hrules⟩ := Bound.Expr.forall_mem_subexprs.mp hrules
    have hbelow : ∀ child ∈ whole.children, ∀ part ∈ child.subexprs, part.ty.tidy = true :=
      fun child hchild => ih child hchild (hrules child hchild)
    refine Bound.Expr.forall_mem_subexprs.mpr ⟨hrule.tidy hknown fun child hchild => ?_, hbelow⟩
    exact hbelow child hchild child (Bound.Expr.self_mem_subexprs child)

end

/-- An access starts at a program input or at a declaration. In the second case it is eventual when
what it starts from is, and when it meets a resource handle. -/
theorem Rule.access_cases {registry : Schema.Registry} {symbols : Symbols}
    {allowed : String → Prop} {known : Nat → Ty → Prop} {path : Bound.Path} {ty : Ty}
    (hknown : ∀ position ty, known position ty → ty.tidy = true)
    (h : Rule registry symbols allowed known (.access path ty)) :
    (∃ input, path.kind = .input input ∧ ty.isEventual = false) ∨
      ∃ base, allowed path.root ∧ Root symbols known path.root path.kind base ∧
        ty.isEventual = (base.isEventual || meetsHandle registry base path.accessors) := by
  cases h with
  | input => exact .inl ⟨_, rfl, rfl⟩
  | @access root kind base accessors hallowed hroot hwalk =>
    obtain ⟨htidy, heventual, hmeets⟩ := walk_ok (hroot.tidy hknown) hwalk
    refine .inr ⟨base, hallowed, hroot, ?_⟩
    rw [(tidy_eventualIf _ htidy).2, hmeets, ← heventual]
    cases hty : (walk registry base accessors).ty.isEventual with
    | false => rw [Bool.or_false]
    | true => rw [eventual_of_isEventual_walk hty, Bool.true_or]

end Provision.Binding
