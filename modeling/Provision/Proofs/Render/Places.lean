import Provision.Proofs.Assembly
import Provision.Proofs.Render.Traces

/-!
# What can be rendered

An expression is rendered from the values in it, and each of them stands in a place where some type
is expected. Rendering succeeds exactly when there is nothing wrong with any of them where it
stands.
-/

namespace Provision.Render

open Rendering

section

variable (target : Target) (expected : Ty)

/-- What is wrong with an expression where a type is expected, whatever stands in it. -/
inductive Defect : Bound.Expr → Prop
  | shapeless {entries : List Bound.Member} {ty : Ty} {diagnostic : Diagnostic} :
      (construction expected ty).result = .error diagnostic → Defect (.object entries ty)
  | structToken {entries : List Bound.Member} {ty : Ty} {token : String} :
      (construction expected ty).result = .ok (.struct token) →
      (TypeToken.ofText? token).isSome = false → Defect (.object entries ty)
  | structNames {entries : List Bound.Member} {ty : Ty} {token : String} :
      (construction expected ty).result = .ok (.struct token) →
      ¬ Distinct target (entries.map (·.key)) → Defect (.object entries ty)
  | functionToken {token : String} {args : List Bound.Member} {field : Option String}
      {reads : Bool} {ty : Ty} : (TypeToken.ofText? token).isSome = false →
        Defect (.invoke token args field reads ty)
  | functionNames {token : String} {args : List Bound.Member} {field : Option String}
      {reads : Bool} {ty : Ty} : ¬ Distinct target (args.map (·.key)) →
        Defect (.invoke token args field reads ty)
  | choice {condition accepted rejected : Bound.Expr} {ty : Ty} : target = .go →
        Defect (.conditional condition accepted rejected ty)

def Fault (value : Bound.Expr) : Prop :=
  Misfit target expected value ∨ Defect target expected value

def Renderable (expr : Bound.Expr) : Prop :=
  ∀ slot value, Stands expected expr slot value → ¬ Fault target slot value

end

theorem renderable_iff {target : Target} {expected : Ty} {whole : Bound.Expr} :
    Renderable target expected whole ↔ ¬ Fault target expected whole ∧
      ∀ place ∈ places expected whole, Renderable target place.1 place.2 := by
  constructor
  · exact fun hall => ⟨hall _ _ .self, fun place hplace slot value hstands =>
      hall slot value (.under hplace hstands)⟩
  · rintro ⟨hself, hunder⟩ slot value hstands
    cases hstands with
    | self => exact hself
    | under hplace hstands => exact hunder _ hplace slot value hstands

theorem fault_mem_nameChecks {target : Target} {token : String} {keys : List String} :
    .fault ∈ nameChecks target token keys ↔
      (TypeToken.ofText? token).isSome = false ∨ ¬ Distinct target keys := by
  simp [nameChecks]

section

variable {target : Target} {scope : List String} {expected : Ty} {whole : Bound.Expr}

private theorem fault_mem_checks_object {entries : List Bound.Member} {ty : Ty} :
    .fault ∈ checks target scope expected (.object entries ty) ↔
      Defect target expected (.object entries ty) := by
  rw [checks]
  constructor
  · intro h
    split at h
    · next token hbuilt =>
      exact (fault_mem_nameChecks.mp h).elim (.structToken hbuilt) (.structNames hbuilt)
    · simp at h
    · next hbuilt => exact .shapeless hbuilt
  · rintro (hbuilt | ⟨hbuilt, htoken⟩ | ⟨hbuilt, hnames⟩) <;> rw [hbuilt]
    · simp
    · exact fault_mem_nameChecks.mpr (.inl htoken)
    · exact fault_mem_nameChecks.mpr (.inr hnames)

theorem fault_mem_own_iff (hscope : ∀ name ty, whole = .placeholder name ty → name ∈ scope) :
    .fault ∈ checks target scope expected whole ∨ .fault ∈ trailing target expected whole ↔
      Defect target expected whole := by
  cases whole with
  | object entries ty => simpa [trailing] using fault_mem_checks_object
  | invoke token args field reads ty =>
    simp only [checks, trailing, fault_mem_nameChecks, List.mem_map, reduceCtorEq, and_false,
      exists_false, or_false]
    constructor
    · exact fun h => h.elim .functionToken .functionNames
    · intro hdefect
      cases hdefect with
      | functionToken htoken => exact .inl htoken
      | functionNames hnames => exact .inr hnames
  | conditional condition accepted rejected ty =>
    simp only [checks, trailing, Event.fault_mem_faultIf, List.not_mem_nil, false_or,
      beq_iff_eq]
    refine ⟨.choice, ?_⟩
    rintro ⟨⟩
    assumption
  | placeholder name ty =>
    refine iff_of_false ?_ (by rintro ⟨⟩)
    simp [checks, trailing, ownNeeds, Event.faultIf, hscope name ty rfl]
  | _ => exact iff_of_false (by simp [checks, trailing]) (by rintro ⟨⟩)

theorem mem_of_free_scopedPlaces (hclosed : ∀ name, Bound.Expr.Free name whole → name ∈ scope)
    {place : List String × Ty × Bound.Expr} (hplace : place ∈ scopedPlaces scope expected whole)
    {name : String} (h : Bound.Expr.Free name place.2.2) : name ∈ place.1 := by
  have hpart := mem_children_of_mem_scopedPlaces hplace
  by_cases happly : ∃ args params body ty, whole = .apply args params body ty
  · obtain ⟨args, params, body, ty, rfl⟩ := happly
    rcases List.mem_append.mp hplace with hplace | hplace
    · rw [List.map_map] at hplace
      obtain ⟨arg, harg, rfl⟩ := List.mem_map.mp hplace
      exact hclosed name (.outer harg h)
    · obtain rfl := List.mem_singleton.mp hplace
      by_cases hparam : name ∈ params
      · exact List.mem_append_left _ hparam
      · exact List.mem_append_right _ (hclosed name (.body hparam h))
  · push Not at happly
    rw [scopedPlaces_of_ne_apply happly] at hplace
    obtain ⟨inner, -, rfl⟩ := List.mem_map.mp hplace
    exact hclosed name (.outer (Bound.Expr.outer_of_ne_apply happly ▸ hpart) h)

/-- Rendering comes to a fault exactly where something is wrong with a value in the expression. -/
theorem fault_mem_events_iff (hclosed : ∀ name, Bound.Expr.Free name whole → name ∈ scope) :
    .fault ∈ events target scope expected whole ↔ ¬ Renderable target expected whole := by
  induction whole generalizing scope expected with
  | step whole ih =>
    have hmisfit : isMisfit target expected whole = true ↔ Misfit target expected whole := by
      rw [← Bool.not_eq_false, isMisfit_eq_false_iff, not_not]
    have hown : _ ↔ Defect target expected whole := fault_mem_own_iff fun name ty heq =>
      hclosed name (heq ▸ .self)
    have hplaces : (∃ place ∈ scopedPlaces scope expected whole,
        .fault ∈ events target place.1 place.2.1 place.2.2) ↔
          ∃ place ∈ places expected whole, ¬ Renderable target place.1 place.2 := by
      rw [← map_snd_scopedPlaces scope expected whole]
      simp only [List.mem_map, exists_exists_and_eq_and]
      refine exists_congr fun place => and_congr_right fun hplace => ?_
      exact ih _ (mem_children_of_mem_scopedPlaces hplace) fun name hname =>
        mem_of_free_scopedPlaces hclosed hplace hname
    rw [events_eq, renderable_iff]
    simp only [List.mem_append, Event.fault_mem_faultIf, hmisfit, List.mem_flatMap, hplaces, Fault,
      ← hown]
    grind

end

end Provision.Render

namespace Provision.Assembly

open Render Rendering

inductive NodeDefect (target : Target) : Bound.Body → Prop
  | token {token : String} {properties : List Bound.Member}
      {options : Bound.Options Bound.Expr} : (TypeToken.ofText? token).isSome = false →
        NodeDefect target (.resource token properties options)
  | names {token : String} {properties : List Bound.Member}
      {options : Bound.Options Bound.Expr} : ¬ Distinct target (properties.map (·.key)) →
        NodeDefect target (.resource token properties options)

theorem fault_mem_nodeEvents_iff {target : Target} {node : Bound.Node}
    (hclosed : ∀ expr ∈ node.expressions, ∀ name, ¬ Bound.Expr.Free name expr) :
    .fault ∈ nodeEvents target node ↔ NodeDefect target node.body ∨
      ∃ slot value, StandsIn node slot value ∧ Fault target slot value := by
  have hdefect : .fault ∈ nodeChecks target node ↔ NodeDefect target node.body := by
    rw [nodeChecks]
    cases node.body with
    | resource token properties options =>
      rw [fault_mem_nameChecks]
      constructor
      · exact fun h => h.elim .token .names
      · intro hdefect
        cases hdefect with
        | token htoken => exact .inl htoken
        | names hnames => exact .inr hnames
    | _ => exact iff_of_false (by simp) (by rintro ⟨⟩)
  have hplaces : (∃ place ∈ nodePlaces node, .fault ∈ events target [] place.1 place.2) ↔
      ∃ slot value, StandsIn node slot value ∧ Fault target slot value := by
    have hplace : ∀ place ∈ nodePlaces node, (.fault ∈ events target [] place.1 place.2 ↔
        ∃ slot value, Stands place.1 place.2 slot value ∧ Fault target slot value) := by
      intro place hplace
      have hexpr : place.2 ∈ node.expressions :=
        map_snd_nodePlaces node ▸ List.mem_map_of_mem hplace
      rw [fault_mem_events_iff fun name hname => absurd hname (hclosed _ hexpr name), Renderable]
      push Not
      rfl
    constructor
    · rintro ⟨place, hmem, hfault⟩
      obtain ⟨slot, value, hstands, hwrong⟩ := (hplace place hmem).mp hfault
      exact ⟨slot, value, ⟨place, hmem, hstands⟩, hwrong⟩
    · rintro ⟨slot, value, ⟨place, hmem, hstands⟩, hwrong⟩
      exact ⟨place, hmem, (hplace place hmem).mpr ⟨slot, value, hstands, hwrong⟩⟩
  simp [nodeEvents, hdefect, hplaces]

theorem programEnv_keeps {α : Type} {field : Env → α}
    (hreserve : ∀ env ident, field (Env.reserve env ident) = field env)
    (hdeclare : ∀ env name ident, field (Env.declare env name ident) = field env)
    (target : Target) (nodes : List Bound.Node) :
    field (programEnv target nodes).1 = field { target } := by
  have hfold {β : Type} {step : Env → β → Env}
      (hstep : ∀ env entry, field (step env entry) = field env) (entries : List β) (env : Env) :
      field (entries.foldl step env) = field env := by
    induction entries generalizing env with
    | nil => rfl
    | cons entry rest ih => rw [List.foldl_cons, ih, hstep]
  refine (hfold (fun env entry => ?_) _ _).trans (hfold hreserve _ _)
  obtain ⟨position, ident⟩ := entry
  dsimp only
  split
  · split
    · exact hdeclare _ _ _
    · exact hreserve _ _
  · rfl

theorem target_programEnv (target : Target) (nodes : List Bound.Node) :
    (programEnv target nodes).1.target = target :=
  programEnv_keeps (fun _ _ => rfl) (fun _ _ _ => rfl) target nodes

theorem scopes_programEnv (target : Target) (nodes : List Bound.Node) :
    (programEnv target nodes).1.scopes = [] :=
  programEnv_keeps (fun _ _ => rfl) (fun _ _ _ => rfl) target nodes

section

variable {target : Target} {nodes : List Bound.Node} {position : Nat} {node : Bound.Node}

private theorem follows_renderAt_of_env {env : Env} (htarget : env.target = target)
    (hscopes : env.scopes = []) (idents : List (Nat × String)) (isFirst : Bool) :
    Follows (nodeEvents target node) (renderAt env nodes idents isFirst position node) := by
  subst htarget
  have hscope (level : Nat) : ({ env with level } : Env).Scoped [] := by
    simp [Env.Scoped, Env.parameter?, hscopes]
  exact follows_renderNode
    (hscope (if node.isOutput then env.dialect.outputLevel else env.dialect.baseLevel)) nodes
    (identOf idents position) isFirst node

theorem follows_renderAt (isFirst : Bool) :
    Follows (nodeEvents target node)
      (renderAt (programEnv target nodes).1 nodes (programEnv target nodes).2 isFirst position
        node) :=
  follows_renderAt_of_env (target_programEnv target nodes)
    (programEnv_keeps (fun _ _ => rfl) (fun _ _ _ => rfl) target nodes) _ isFirst

theorem refusal?_isSome_iff (h : nodes[position]? = some node) :
    (refusal? target nodes position).isSome = true ↔ .fault ∈ nodeEvents target node := by
  have hfollows : Follows (nodeEvents target node)
      (renderAt (programEnv target nodes).1 nodes (programEnv target nodes).2 true position node) :=
    follows_renderAt true
  rw [refusal?, failureAt, h, Option.bind_some, ← not_iff_not, ← hfollows.succeeds]
  simp [Succeeds]

end

/-- A declaration has no statement of its own exactly when something is wrong with it or with a
value where it stands. -/
theorem refusal?_eq_none_iff {program : Bound.Program} {target : Target}
    (hclosed : ∀ expr ∈ program.expressions, ∀ name, ¬ Bound.Expr.Free name expr)
    {position : Nat} {node : Bound.Node} (hnode : program.nodes[position]? = some node) :
    refusal? target program.nodes position = none ↔ ¬ NodeDefect target node.body ∧
      ∀ slot value, StandsIn node slot value → ¬ Fault target slot value := by
  have hexpressions : ∀ expr ∈ node.expressions, ∀ name, ¬ Bound.Expr.Free name expr :=
    fun expr hexpr => hclosed expr (List.mem_flatMap.mpr ⟨node, List.mem_of_getElem? hnode, hexpr⟩)
  rw [← Option.not_isSome_iff_eq_none, refusal?_isSome_iff hnode,
    fault_mem_nodeEvents_iff hexpressions]
  push Not
  rfl

end Provision.Assembly
