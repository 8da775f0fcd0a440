import Provision.Proofs.Lowering.Completeness

/-!
# Deferred values

A value is deferred when it depends on something that is known only after provisioning: an output
of a resource, a secret, a reference to another stack or a provider function, read directly or
through variables. An expression that computes with a deferred value should be typed as eventual,
so that it stands in an apply after lowering. It is typed so as long as the value surfaces: a list,
a map or a struct hides what stands in it from the readers of a variable that holds it. And then it
stands in an apply unless lowering overlooks it.
-/

namespace Provision.Bound

/-! ## Variables by name -/

def Node.declares (name : String) (node : Node) : Bool := !node.isOutput && node.name == name

def Program.variableNamed? (program : Program) (name : String) : Option Expr :=
  match program.nodes.find? (Node.declares name) with
  | some ⟨_, .variable value⟩ => some value
  | _ => none

/-! ## Deferral -/

/-- Whether an expression computes with the plain values of its children, branching aside. -/
def Expr.isReader : Expr → Bool
  | .template .. => true
  | .call builtin _ _ => !builtin.returnsEventual
  | .binary .. => true
  | .unary .. => true
  | .index .. => true
  | _ => false

theorem Expr.computes_of_isReader {expr : Expr} (h : expr.isReader = true) :
    expr.computes = true := by
  cases expr <;> simp_all [isReader, computes]

section

variable (registry : Schema.Registry) (program : Program)

/-- Expressions that depend on a value known only after provisioning. -/
inductive Deferred : Expr → Prop
  | resource {path : Path} {token : String} {ty : Ty} (hkind : path.kind = .resource token)
      (haccessors : path.accessors ≠ []) : Deferred (.access path ty)
  | call {builtin : Builtin} {args : List Expr} {ty : Ty}
      (hbuiltin : builtin.returnsEventual = true) : Deferred (.call builtin args ty)
  | invoke {token : String} {args : List (Slot Expr)} {field : Option String} {reads : Bool}
      {ty : Ty} : Deferred (.invoke token args field reads ty)
  | variable {path : Path} {value : Expr} {ty : Ty} (hkind : path.kind = .variable)
      (hvalue : program.variableNamed? path.root = some value) (h : Deferred value) :
      Deferred (.access path ty)
  | child {child whole : Expr} (hchild : child ∈ whole.children) (h : Deferred child) :
      Deferred whole

/-- Deferred values that show in the type: between where they are read and the outside there are
only computations, branches and variables. A variable may also give access to a resource handle. -/
inductive Surfaces : Expr → Prop
  | resource {path : Path} {token : String} {ty : Ty} (hkind : path.kind = .resource token)
      (haccessors : path.accessors ≠ []) : Surfaces (.access path ty)
  | call {builtin : Builtin} {args : List Expr} {ty : Ty}
      (hbuiltin : builtin.returnsEventual = true) : Surfaces (.call builtin args ty)
  | invoke {token : String} {args : List (Slot Expr)} {field : Option String} {reads : Bool}
      {ty : Ty} : Surfaces (.invoke token args field reads ty)
  | variable {path : Path} {value : Expr} {ty : Ty} (hkind : path.kind = .variable)
      (hvalue : program.variableNamed? path.root = some value) (h : Surfaces value) :
      Surfaces (.access path ty)
  | handle {path : Path} {value : Expr} {ty : Ty} (hkind : path.kind = .variable)
      (hvalue : program.variableNamed? path.root = some value)
      (h : Binding.meetsHandle registry value.ty path.accessors = true) : Surfaces (.access path ty)
  | reader {whole child part : Expr} (hreader : whole.isReader = true)
      (hchild : child ∈ whole.children) (hpart : part ∈ child.subexprs)
      (h : Surfaces part) : Surfaces whole
  | condition {condition accepted rejected part : Expr} {ty : Ty}
      (hpart : part ∈ condition.subexprs) (h : Surfaces part) :
      Surfaces (.conditional condition accepted rejected ty)
  | accepted {condition accepted rejected : Expr} {ty : Ty} (h : Surfaces accepted) :
      Surfaces (.conditional condition accepted rejected ty)
  | rejected {condition accepted rejected : Expr} {ty : Ty} (h : Surfaces rejected) :
      Surfaces (.conditional condition accepted rejected ty)

def SurfacesBelow (whole : Expr) : Prop :=
  ∃ child ∈ whole.children, ∃ part ∈ child.subexprs, Surfaces registry program part

/-- A variable is read below the expression whose value is deferred and does not show it. -/
def HiddenBelow (whole : Expr) : Prop :=
  ∃ child ∈ whole.children, ∃ path ty value, Expr.access path ty ∈ child.subexprs ∧
    path.kind = .variable ∧ program.variableNamed? path.root = some value ∧
    Deferred program value ∧ ¬ Surfaces registry program value

end

theorem Deferred.surfaces_or_hidden {registry : Schema.Registry} {program : Program} {expr : Expr}
    (h : Deferred program expr) :
    (∃ part ∈ expr.subexprs, Surfaces registry program part) ∨
      ∃ path ty value, Expr.access path ty ∈ expr.subexprs ∧ path.kind = .variable ∧
        program.variableNamed? path.root = some value ∧ Deferred program value ∧
        ¬ Surfaces registry program value := by
  induction h with
  | resource hkind haccessors =>
    exact .inl ⟨_, Expr.self_mem_subexprs _, .resource hkind haccessors⟩
  | call hbuiltin => exact .inl ⟨_, Expr.self_mem_subexprs _, .call hbuiltin⟩
  | invoke => exact .inl ⟨_, Expr.self_mem_subexprs _, .invoke⟩
  | @«variable» path value ty hkind hvalue hdeferred _ =>
    by_cases hsurfaces : Surfaces registry program value
    · exact .inl ⟨_, Expr.self_mem_subexprs _, .variable hkind hvalue hsurfaces⟩
    · exact .inr ⟨path, ty, value, Expr.self_mem_subexprs _, hkind, hvalue, hdeferred, hsurfaces⟩
  | child hchild _ ih =>
    rcases ih with ⟨part, hpart, hsurfaces⟩ | ⟨path, ty, value, hpart, hhidden⟩
    · exact .inl ⟨part, Expr.mem_subexprs_of_child hchild hpart, hsurfaces⟩
    · exact .inr ⟨path, ty, value, Expr.mem_subexprs_of_child hchild hpart, hhidden⟩

end Provision.Bound

namespace Provision.Binding

open Provision.Bound (Deferred Surfaces SurfacesBelow HiddenBelow)
open Provision.Bound.Expr (AtInput Exposed children self_mem_subexprs containsEventual_iff
  forall_mem_subexprs mem_subexprs_of_child computes_of_isReader)
open Provision.Lowering (lower lowerInput lift Applied Overlooked)

/-! ## Variables of bound programs -/

variable {position : Nat}

theorem BoundAs.declares_eq {program : Program} {registry : Schema.Registry} {symbols : Symbols}
    {state : State} {node : Node} {bound : Bound.Node}
    (h : BoundAs program registry symbols state position node bound) (name : String) :
    bound.declares name = node.declares name := by
  cases h <;> rfl

theorem find?_bind {program : Program} {registry : Schema.Registry} {root : String} {node : Node}
    {bound : Bound.Node} (hdeclared : program.declaration? root = some (position, node))
    (hbound : (bind program registry).1.nodes[position]? = some bound) :
    (bind program registry).1.nodes.find? (Bound.Node.declares root) = some bound := by
  obtain ⟨state, outcome⟩ := exists_outcome program registry
  obtain ⟨hnode, hdeclares, hbefore⟩ := Program.declaration?_eq_some_iff.mp hdeclared
  obtain ⟨hlt, hat⟩ := List.getElem?_eq_some_iff.mp hbound
  refine List.find?_eq_some_iff_getElem.mpr ⟨?_, position, hlt, hat, fun before hless => ?_⟩
  · rw [(outcome.boundAs hnode hbound).declares_eq]
    exact hdeclares
  · have hbound' := List.getElem?_eq_getElem (hless.trans hlt)
    obtain ⟨other, hother, hboundAs⟩ := outcome.exists_declaration hbound'
    rw [hboundAs.declares_eq, hbefore before hless other hother]
    rfl

variable {name : String} {ty : Ty}

section

variable {program : Program} {registry : Schema.Registry}

theorem exists_variable (hacyclic : program.Acyclic) {root : String} {value : Expr}
    (hlookup : (symbolsOf program).lookup root = some (position, .variable name value))
    (hread : ReadAt program (bind program registry).1 position ty) :
    ∃ other bound, (bind program registry).1.nodes[position]? = some ⟨other, .variable bound⟩ ∧
      (bind program registry).1.variableNamed? root = some bound ∧ bound.ty = ty := by
  have hdeclared := (lookup_symbols program root).symm.trans hlookup
  rcases hread with ⟨other, bound, hbound, hty⟩ | ⟨hcyclic, -⟩
  · refine ⟨other, bound, hbound, ?_, hty⟩
    rw [Bound.Program.variableNamed?, find?_bind hdeclared hbound]
  · exact absurd hcyclic (hacyclic position)

theorem mem_expressions_of_variable {bound : Bound.Program} {value : Bound.Expr}
    (h : bound.nodes[position]? = some ⟨name, .variable value⟩) : value ∈ bound.expressions :=
  List.mem_flatMap.mpr ⟨_, List.mem_of_getElem? h, List.mem_singleton.mpr rfl⟩

theorem tidy_of_readAt (hclean : hasErrors (bind program registry).2 = false) (position : Nat)
    (ty : Ty) (h : ReadAt program (bind program registry).1 position ty) : ty.tidy = true := by
  rcases h with ⟨name, value, hvalue, rfl⟩ | ⟨-, rfl⟩
  · exact (rules_bind hclean (mem_expressions_of_variable hvalue)).2 value
      (self_mem_subexprs value)
  · rfl

end

/-! ## Which rules give eventual types -/

section

variable {registry : Schema.Registry} {symbols : Symbols} {allowed : String → Prop}
  {known : Nat → Ty → Prop} {part : Bound.Expr}

theorem Rule.isEventual_reader (h : Rule registry symbols allowed known part)
    (hchildren : ∀ child ∈ part.children, child.ty.tidy = true)
    (hreader : part.isReader = true) :
    part.ty.isEventual = part.children.any Bound.Expr.containsEventual := by
  cases h with
  | template =>
    rw [Bound.Expr.ty, (tidy_eventualIf _ rfl).2, Bound.Expr.partsContainEventual_eq]
    simp [Ty.isEventual, children]
  | @call builtin args =>
    have hbuiltin : builtin.returnsEventual = false := by
      simpa [Bound.Expr.isReader] using hreader
    have hcallTy : (callTy builtin args).bare = true := Ty.closed_bare.callTy hchildren
    rw [Bound.Expr.ty, (tidy_eventualIf _ (Ty.tidy_of_bare hcallTy)).2,
      Ty.isEventual_of_bare hcallTy, Bound.Expr.someContainEventual_eq, hbuiltin]
    simp [children]
  | binary h =>
    simp only [List.mem_cons, List.not_mem_nil, or_false] at h
    rcases h with rfl | rfl | rfl | rfl <;>
      rw [Bound.Expr.ty, (tidy_eventualIf _ rfl).2] <;>
      simp [Ty.isEventual, children]
  | unary h =>
    simp only [List.mem_cons, List.not_mem_nil, or_false] at h
    rcases h with rfl | rfl | rfl <;>
      rw [Bound.Expr.ty, (tidy_eventualIf _ rfl).2] <;>
      simp [Ty.isEventual, children]
  | @index collection key ty h =>
    have hbare := Ty.closed_bare.elementTy (hchildren collection (by simp [children])) h
    rw [Bound.Expr.ty, (tidy_eventualIf _ (Ty.tidy_of_bare hbare)).2, Ty.isEventual_of_bare hbare]
    simp [children]
  | _ => simp [Bound.Expr.isReader] at hreader

theorem Rule.isEventual_call {builtin : Builtin} {args : List Bound.Expr}
    (h : Rule registry symbols allowed known (.call builtin args ty))
    (hchildren : ∀ child ∈ args, child.ty.tidy = true) (hbuiltin : builtin.returnsEventual = true) :
    ty.isEventual = true := by
  cases h with
  | call =>
    rw [(tidy_eventualIf _ (Ty.tidy_of_bare (Ty.closed_bare.callTy hchildren))).2, hbuiltin]
    rfl

theorem Rule.isEventual_invoke {token : String} {args : List Bound.Member} {field : Option String}
    {reads : Bool} (h : Rule registry symbols allowed known (.invoke token args field reads ty)) :
    ty.isEventual = true := by
  cases h with
  | invoke hresult => exact (Ty.tidy_mkEventual (Ty.tidy_of_bare hresult)).2

theorem Rule.isEventual_conditional {condition accepted rejected : Bound.Expr}
    (h : Rule registry symbols allowed known (.conditional condition accepted rejected ty))
    (haccepted : accepted.ty.tidy = true) (hrejected : rejected.ty.tidy = true) :
    ty.isEventual =
      (condition.containsEventual || accepted.ty.isEventual || rejected.ty.isEventual) := by
  cases h with
  | conditional => exact (tidy_conditional condition haccepted hrejected).2

private theorem meetsHandle_configTy (type : ConfigType) (accessors : List Accessor) :
    meetsHandle registry (configTy type) accessors = false := by
  have hany : ∀ accessors, meetsHandle registry .any accessors = false := by
    intro accessors
    induction accessors with
    | nil => rfl
    | cons accessor rest ih => simpa [meetsHandle, step, stepValue, Ty.resolved] using ih
  have hstring : ∀ accessors, meetsHandle registry .string accessors = false := by
    intro accessors
    cases accessors <;> rfl
  cases type with
  | object => exact hany accessors
  | stringList =>
    cases accessors with
    | nil => rfl
    | cons accessor rest =>
      cases accessor with
      | index position => exact hstring rest
      | _ => rfl
  | _ => cases accessors <;> rfl

end

/-! ## What an eventual type comes from -/

section

variable {registry : Schema.Registry} {symbols : Symbols} {allowed : String → Prop}
  {known : Nat → Ty → Prop} {bound : Bound.Program}
  (hknown : ∀ position ty, known position ty → ty.tidy = true)
  (hvariables : ∀ root base, allowed root → Root symbols known root .variable base →
    ∃ value, bound.variableNamed? root = some value ∧ value.ty = base ∧
      (value.ty.isEventual = true → Surfaces registry bound value))

include hknown hvariables

private theorem surfaces_access {path : Bound.Path}
    (hrule : Rule registry symbols allowed known (.access path ty))
    (heventual : ty.isEventual = true) : Surfaces registry bound (.access path ty) := by
  obtain ⟨root, kind, accessors⟩ := path
  rcases hrule.access_cases hknown with ⟨input, -, hplain⟩ | ⟨base, hallowed, hroot, hty⟩
  · simp [heventual] at hplain
  · rw [heventual, eq_comm, Bool.or_eq_true] at hty
    cases kind with
    | config =>
      cases hroot with
      | config hlookup =>
        rw [Ty.isEventual_of_bare (bare_configTy _), meetsHandle_configTy] at hty
        simp at hty
    | resource token =>
      cases hroot with
      | resource hlookup =>
        refine .resource rfl fun hnil => ?_
        simp only at hnil
        simp [hnil, Ty.isEventual, meetsHandle] at hty
    | «variable» =>
      obtain ⟨value, hvalue, rfl, hsurfaces⟩ := hvariables root base hallowed hroot
      rcases hty with hty | hmeets
      · exact .variable rfl hvalue (hsurfaces hty)
      · exact .handle rfl hvalue hmeets
    | input input => cases hroot

private theorem surfaces_of_children {whole : Bound.Expr}
    (hrule : Rule registry symbols allowed known whole)
    (htidy : ∀ child ∈ whole.children, child.ty.tidy = true)
    (hbelow : ∀ child ∈ whole.children, ∀ part ∈ child.subexprs, part.ty.isEventual = true →
      Surfaces registry bound part)
    (heventual : whole.ty.isEventual = true) : Surfaces registry bound whole := by
  have hreader : whole.isReader = true → Surfaces registry bound whole := by
    intro hreader
    rw [hrule.isEventual_reader htidy hreader, List.any_eq_true] at heventual
    obtain ⟨child, hchild, hcontains⟩ := heventual
    obtain ⟨part, hpart, hty⟩ := (containsEventual_iff child).mp hcontains
    exact .reader hreader hchild hpart (hbelow child hchild part hpart hty)
  cases whole with
  | template parts ty | binary op left right ty | unary op operand ty | index collection key ty =>
    exact hreader rfl
  | call builtin args ty =>
    cases hbuiltin : builtin.returnsEventual with
    | true => exact .call hbuiltin
    | false => exact hreader (by simp [Bound.Expr.isReader, hbuiltin])
  | invoke token args field reads ty => exact .invoke
  | access path ty => exact surfaces_access hknown hvariables hrule heventual
  | conditional condition accepted rejected ty =>
    simp only [children, List.forall_mem_cons] at htidy hbelow
    rw [Bound.Expr.ty, hrule.isEventual_conditional htidy.2.1 htidy.2.2.1, Bool.or_eq_true,
      Bool.or_eq_true] at heventual
    rcases heventual with (hcondition | haccepted) | hrejected
    · obtain ⟨part, hpart, hty⟩ := (containsEventual_iff condition).mp hcondition
      exact .condition hpart (hbelow.1 part hpart hty)
    · exact .accepted (hbelow.2.1 accepted (self_mem_subexprs accepted) haccepted)
    · exact .rejected (hbelow.2.2.1 rejected (self_mem_subexprs rejected) hrejected)
  | literal value ty =>
    cases hrule with
    | literal hty =>
      simp only [List.mem_cons, List.not_mem_nil, or_false] at hty
      rcases hty with rfl | rfl | rfl | rfl | rfl <;> cases heventual
  | object entries ty =>
    cases hrule with
    | struct => cases heventual
    | map hexpected =>
      have hplain := Ty.isEventual_of_bare (Ty.closed_bare.mapTy hexpected htidy)
      exact absurd (heventual.symm.trans hplain) (by simp)
  | array items ty =>
    cases hrule with
    | array hexpected =>
      have hplain := Ty.isEventual_of_bare (Ty.closed_bare.listTy hexpected htidy)
      exact absurd (heventual.symm.trans hplain) (by simp)
  | tuple items ty =>
    cases hrule with
    | tuple hexpected =>
      have hplain := Ty.isEventual_of_bare (Ty.closed_bare.listTy hexpected htidy)
      exact absurd (heventual.symm.trans hplain) (by simp)
  | apply args params body ty => cases hrule
  | placeholder name ty => cases hrule
  | error ty => cases hrule

theorem surfaces_of_rules {whole : Bound.Expr}
    (hrules : ∀ part ∈ whole.subexprs, Rule registry symbols allowed known part) :
    ∀ part ∈ whole.subexprs, part.ty.isEventual = true → Surfaces registry bound part := by
  have htidy := tidy_of_rules hknown hrules
  induction whole with
  | step whole ih =>
    obtain ⟨hrule, hrules⟩ := forall_mem_subexprs.mp hrules
    obtain ⟨-, htidy⟩ := forall_mem_subexprs.mp htidy
    have hbelow : ∀ child ∈ whole.children, ∀ part ∈ child.subexprs, part.ty.isEventual = true →
        Surfaces registry bound part :=
      fun child hchild => ih child hchild (hrules child hchild) (htidy child hchild)
    refine forall_mem_subexprs.mpr ⟨?_, hbelow⟩
    refine surfaces_of_children hknown hvariables hrule (fun child hchild => ?_) hbelow
    exact htidy child hchild child (self_mem_subexprs child)

end

section

variable {program : Program} {registry : Schema.Registry} (hacyclic : program.Acyclic)
  (hclean : hasErrors (bind program registry).2 = false)

include hacyclic hclean

private theorem surfaces_variable {value : Bound.Expr}
    (hnode : (bind program registry).1.nodes[position]? = some ⟨name, .variable value⟩)
    (heventual : value.ty.isEventual = true) :
    Surfaces registry (bind program registry).1 value := by
  induction position using hacyclic.wellFounded.induction generalizing name value with
  | _ position ih =>
    refine surfaces_of_rules (tidy_of_readAt hclean) ?_ (rules_variable hclean hnode) value
      (self_mem_subexprs value) heventual
    rintro root base ⟨inner, expr, hdeclared, hroot⟩ hbase
    cases hbase with
    | «variable» hlookup hread =>
      obtain ⟨other, found, hfound, hvariable, hty⟩ := exists_variable hacyclic hlookup hread
      refine ⟨found, hvariable, hty, fun hfoundEventual => ?_⟩
      have hdeclaredRoot := (lookup_symbols program root).symm.trans hlookup
      exact ih _ (Program.Reads.of_root hdeclared hroot hdeclaredRoot ⟨_, _, rfl⟩) hfound
        hfoundEventual

variable {part : Bound.Expr}

theorem surfaces_of_isEventual (hwithin : (bind program registry).1.Within part)
    (heventual : part.ty.isEventual = true) : Surfaces registry (bind program registry).1 part := by
  obtain ⟨expr, hexpr, hpart⟩ := hwithin
  refine surfaces_of_rules (tidy_of_readAt hclean) ?_ (rules_bind hclean hexpr).1 part hpart
    heventual
  intro root base _ hbase
  cases hbase with
  | «variable» hlookup hread =>
    obtain ⟨other, found, hfound, hvariable, hty⟩ := exists_variable hacyclic hlookup hread
    exact ⟨found, hvariable, hty, surfaces_variable hacyclic hclean hfound⟩

omit hacyclic in
theorem rule_of_within (hwithin : (bind program registry).1.Within part) :
    Rule registry (symbolsOf program) (fun _ => True)
      (ReadAt program (bind program registry).1) part ∧
    ∀ child ∈ part.children, child.ty.tidy = true := by
  obtain ⟨expr, hexpr, hpart⟩ := hwithin
  obtain ⟨hrules, htidy⟩ := rules_bind hclean hexpr
  refine ⟨hrules part hpart, fun child hchild => htidy child ?_⟩
  exact Bound.Expr.mem_subexprs_trans
    (mem_subexprs_of_child hchild (self_mem_subexprs child)) hpart

theorem isEventual_variable {path : Bound.Path} {value : Bound.Expr}
    (hwithin : (bind program registry).1.Within (.access path ty)) (hkind : path.kind = .variable)
    (hvalue : (bind program registry).1.variableNamed? path.root = some value) :
    ty.isEventual = (value.ty.isEventual || meetsHandle registry value.ty path.accessors) ∧
      (bind program registry).1.Within value := by
  obtain ⟨hrule, -⟩ := rule_of_within hclean hwithin
  rcases hrule.access_cases (tidy_of_readAt hclean) with ⟨input, hinput, -⟩ | ⟨base, -, hroot, hty⟩
  · simp [hkind] at hinput
  · rw [hkind] at hroot
    cases hroot with
    | «variable» hlookup hread =>
      obtain ⟨other, found, hfound, hvariable, rfl⟩ := exists_variable hacyclic hlookup hread
      obtain rfl : value = found := by simpa [hvalue] using hvariable
      exact ⟨hty, value, mem_expressions_of_variable hfound, self_mem_subexprs value⟩

theorem isEventual_of_surfaces (hsurfaces : Surfaces registry (bind program registry).1 part)
    (hwithin : (bind program registry).1.Within part) : part.ty.isEventual = true := by
  induction hsurfaces with
  | @resource path token ty hkind haccessors =>
    obtain ⟨hrule, -⟩ := rule_of_within hclean hwithin
    rcases hrule.access_cases (tidy_of_readAt hclean) with
      ⟨input, hinput, -⟩ | ⟨base, -, hroot, hty⟩
    · simp [hkind] at hinput
    · rw [hkind] at hroot
      cases hroot with
      | resource hlookup =>
        obtain ⟨accessor, rest, hcons⟩ := List.exists_cons_of_ne_nil haccessors
        rw [Bound.Expr.ty, hty, hcons]
        rfl
  | call hbuiltin =>
    obtain ⟨hrule, htidy⟩ := rule_of_within hclean hwithin
    exact hrule.isEventual_call htidy hbuiltin
  | invoke => exact (rule_of_within hclean hwithin).1.isEventual_invoke
  | «variable» hkind hvalue _ ih =>
    obtain ⟨hty, hvalueWithin⟩ := isEventual_variable hacyclic hclean hwithin hkind hvalue
    rw [Bound.Expr.ty, hty, ih hvalueWithin, Bool.true_or]
  | handle hkind hvalue hmeets =>
    obtain ⟨hty, -⟩ := isEventual_variable hacyclic hclean hwithin hkind hvalue
    rw [Bound.Expr.ty, hty, hmeets, Bool.or_true]
  | @reader whole child part hreader hchild hpart _ ih =>
    obtain ⟨hrule, htidy⟩ := rule_of_within hclean hwithin
    have hpartWithin := hwithin.of_mem (mem_subexprs_of_child hchild hpart)
    rw [hrule.isEventual_reader htidy hreader, List.any_eq_true]
    exact ⟨child, hchild,
      (containsEventual_iff child).mpr ⟨part, hpart, ih hpartWithin⟩⟩
  | @condition condition accepted rejected part ty hpart _ ih =>
    obtain ⟨hrule, htidy⟩ := rule_of_within hclean hwithin
    simp only [children, List.forall_mem_cons] at htidy
    have hpartWithin := hwithin.of_mem
      (mem_subexprs_of_child (by simp [children]) hpart)
    have hcondition : condition.containsEventual = true :=
      (containsEventual_iff condition).mpr ⟨part, hpart, ih hpartWithin⟩
    rw [Bound.Expr.ty, hrule.isEventual_conditional htidy.2.1 htidy.2.2.1, hcondition,
      Bool.true_or, Bool.true_or]
  | @accepted condition accepted rejected ty _ ih =>
    obtain ⟨hrule, htidy⟩ := rule_of_within hclean hwithin
    simp only [children, List.forall_mem_cons] at htidy
    have haccepted := hwithin.of_mem (mem_subexprs_of_child
      (by simp [children]) (self_mem_subexprs accepted))
    rw [Bound.Expr.ty, hrule.isEventual_conditional htidy.2.1 htidy.2.2.1, ih haccepted,
      Bool.or_true, Bool.true_or]
  | @rejected condition accepted rejected ty _ ih =>
    obtain ⟨hrule, htidy⟩ := rule_of_within hclean hwithin
    simp only [children, List.forall_mem_cons] at htidy
    have hrejected := hwithin.of_mem (mem_subexprs_of_child
      (by simp [children]) (self_mem_subexprs rejected))
    rw [Bound.Expr.ty, hrule.isEventual_conditional htidy.2.1 htidy.2.2.1, ih hrejected,
      Bool.or_true]

/-! ## Readers -/

private theorem isEventual_reader_iff (hwithin : (bind program registry).1.Within part)
    (hreader : part.isReader = true) :
    part.ty.isEventual = true ↔ SurfacesBelow registry (bind program registry).1 part := by
  obtain ⟨hrule, htidy⟩ := rule_of_within hclean hwithin
  constructor
  · intro heventual
    rw [hrule.isEventual_reader htidy hreader, List.any_eq_true] at heventual
    obtain ⟨child, hchild, hcontains⟩ := heventual
    obtain ⟨inner, hinner, hty⟩ := (containsEventual_iff child).mp hcontains
    have hinnerWithin := hwithin.of_mem (mem_subexprs_of_child hchild hinner)
    exact ⟨child, hchild, inner, hinner,
      surfaces_of_isEventual hacyclic hclean hinnerWithin hty⟩
  · rintro ⟨child, hchild, inner, hinner, hsurfaces⟩
    exact isEventual_of_surfaces hacyclic hclean (.reader hreader hchild hinner hsurfaces) hwithin

omit hacyclic in
private theorem lowerInput_reader (hwithin : (bind program registry).1.Within part)
    (hreader : part.isReader = true) :
    lowerInput part = if part.ty.isEventual then lift part else part := by
  obtain ⟨hrule, htidy⟩ := rule_of_within hclean hwithin
  have hcontains : part.containsEventual = part.ty.isEventual := by
    rw [Bound.Expr.containsEventual_eq, ← hrule.isEventual_reader htidy hreader, Bool.or_self]
  rw [Lowering.lowerInput_of_computes (computes_of_isReader hreader), hcontains]

end

/-- In an accepted program without cyclic variables, a reader is typed as eventual exactly when
something surfaces below it, so a reader of a deferred value is unless a variable hides the value.
Lowering lifts it where an input is expected, and leaves it alone there otherwise. Wherever it
stands, it is in the body of an apply if it is eventual, and not outside of one, unless it is
overlooked. -/
theorem eventual_and_applied_iff_surfacesBelow (program : Program) (registry : Schema.Registry)
    (hacyclic : program.Acyclic) (hclean : hasErrors (bind program registry).2 = false)
    (position : Nat) (expr lowered part : Bound.Expr)
    (hexpr : (bind program registry).1.expressions[position]? = some expr)
    (hlowered : (lower (bind program registry).1).expressions[position]? = some lowered)
    (hpart : part ∈ expr.subexprs) (hreader : part.isReader = true) :
    (part.ty.isEventual = true ↔ SurfacesBelow registry (bind program registry).1 part) ∧
      (AtInput part expr → Exposed (if part.ty.isEventual then lift part else part) lowered) ∧
      (part.ty.isEventual = true →
        (Applied part lowered ∨ Overlooked part expr) ∧
          (Exposed part lowered → Overlooked part expr)) ∧
      ((∃ child ∈ part.children, Deferred (bind program registry).1 child) →
        part.ty.isEventual = true ∨ HiddenBelow registry (bind program registry).1 part) := by
  have hmem := List.mem_of_getElem? hexpr
  have hwithin : (bind program registry).1.Within part := ⟨expr, hmem, hpart⟩
  have hsource := source_bind program registry expr hmem
  have heventual := isEventual_reader_iff hacyclic hclean hwithin hreader
  have hsame : lowered = lowerInput expr := by
    rw [Lowering.lower_eq_map, Bound.Program.expressions_map, List.getElem?_map, hexpr] at hlowered
    exact (Option.some.inj hlowered).symm
  subst hsame
  refine ⟨heventual, fun hinput => ?_, fun hty => ?_, ?_⟩
  · rw [← lowerInput_reader hclean hwithin hreader]
    exact Lowering.exposed_lowerInput hinput hsource
  · have hneeds : part.NeedsApply :=
      ⟨computes_of_isReader hreader, part, self_mem_subexprs part, hty⟩
    exact ⟨Lowering.applied_or_overlooked hsource hpart hneeds,
      fun hexposed => Lowering.overlooked_of_exposed hsource hexposed hneeds⟩
  · rintro ⟨child, hchild, hdeferred⟩
    rcases hdeferred.surfaces_or_hidden with ⟨inner, hinner, hsurfaces⟩ | hhidden
    · exact .inl (heventual.mpr ⟨child, hchild, inner, hinner, hsurfaces⟩)
    · exact .inr ⟨child, hchild, hhidden⟩

def shownRead : Program :=
  ⟨[.resource "bucket" "aws:s3:Bucket" [] {},
    .variable "name" (.access ⟨"bucket", [.field "id"]⟩ none),
    .variable "label" (.template [.text "x-", .expr (.access ⟨"name", []⟩ none)] none)]⟩

theorem eventual_and_applied_shownRead :
    shownRead.Acyclic ∧ hasErrors (bind shownRead bucketRegistry).2 = false ∧
      ∃ lowered ∈ (lower (bind shownRead bucketRegistry).1).expressions,
        ∃ part, (bind shownRead bucketRegistry).1.Within part ∧ part.isReader = true ∧
          (∃ child ∈ part.children, Deferred (bind shownRead bucketRegistry).1 child) ∧
          part.ty.isEventual = true ∧ Exposed (lift part) lowered := by
  let id : Bound.Expr :=
    .access ⟨"bucket", .resource "aws:s3:Bucket", [.field "id"]⟩ (.eventual .string)
  let read : Bound.Expr := .access ⟨"name", .variable, []⟩ (.eventual .string)
  let label : Bound.Expr := .template [.text "x-", .expr read] (.eventual .string)
  have hacyclic : shownRead.Acyclic := Program.acyclic_of_reads_lt (by decide)
  have hclean : hasErrors (bind shownRead bucketRegistry).2 = false := by decide +kernel
  have hexpressions : (bind shownRead bucketRegistry).1.expressions = [id, label] := rfl
  have hvalue : (bind shownRead bucketRegistry).1.variableNamed? "name" = some id := rfl
  have hlowered : (lower (bind shownRead bucketRegistry).1).expressions[1]? =
      some (lowerInput label) := by
    rw [Lowering.lower_eq_map, Bound.Program.expressions_map, hexpressions]
    rfl
  have hself := self_mem_subexprs label
  have hchild : read ∈ label.children := by simp [label, children]
  have hsurfaces : Surfaces bucketRegistry (bind shownRead bucketRegistry).1 read :=
    .variable rfl hvalue (.resource rfl (by simp))
  obtain ⟨heventual, hinput, -⟩ := eventual_and_applied_iff_surfacesBelow shownRead bucketRegistry
    hacyclic hclean 1 label _ label (by rw [hexpressions]; rfl) hlowered hself rfl
  refine ⟨hacyclic, hclean, _, List.mem_of_getElem? hlowered, label, ⟨label, ?_, hself⟩, rfl,
    ⟨read, hchild, .variable rfl hvalue (.resource rfl (by simp))⟩, ?_, hinput .self⟩
  · simp [hexpressions]
  · exact heventual.mpr ⟨read, hchild, read, self_mem_subexprs read, hsurfaces⟩

def hiddenRead : Program :=
  ⟨[.resource "bucket" "aws:s3:Bucket" [] {},
    .variable "names" (.array [.access ⟨"bucket", [.field "id"]⟩ none] none),
    .variable "label" (.template [.text "x-", .expr (.access ⟨"names", [.index 0]⟩ none)] none)]⟩

/-- The list hides the id from the text. -/
theorem not_isEventual_hiddenRead :
    hiddenRead.Acyclic ∧ hasErrors (bind hiddenRead bucketRegistry).2 = false ∧
      ∃ part, (bind hiddenRead bucketRegistry).1.Within part ∧ part.isReader = true ∧
        (∃ child ∈ part.children, Deferred (bind hiddenRead bucketRegistry).1 child) ∧
        part.ty.isEventual = false := by
  let id : Bound.Expr :=
    .access ⟨"bucket", .resource "aws:s3:Bucket", [.field "id"]⟩ (.eventual .string)
  let names : Bound.Expr := .array [id] (.list .string)
  let read : Bound.Expr := .access ⟨"names", .variable, [.index 0]⟩ .string
  let label : Bound.Expr := .template [.text "x-", .expr read] .string
  have hexpressions : (bind hiddenRead bucketRegistry).1.expressions = [names, label] := rfl
  have hvalue : (bind hiddenRead bucketRegistry).1.variableNamed? "names" = some names := rfl
  have hid : Deferred (bind hiddenRead bucketRegistry).1 id := .resource rfl (by simp)
  have hnames : Deferred (bind hiddenRead bucketRegistry).1 names :=
    .child (by simp [names, children]) hid
  refine ⟨Program.acyclic_of_reads_lt (by decide), by decide +kernel, label, ?_, rfl, ?_, rfl⟩
  · exact ⟨label, by simp [hexpressions], self_mem_subexprs label⟩
  · exact ⟨read, by simp [label, children], .variable rfl hvalue hnames⟩

end Provision.Binding
