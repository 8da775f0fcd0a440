import Provision.Proofs.Binding.Disclosure
import Provision.Proofs.Conversion
import Provision.Proofs.Render.Spots
import Provision.Proofs.Resolution

/-!
# Secret settings

A secret setting is read as a secret in its own statement, where the target has the means. It goes
no further than that: a reading of it has the type of the value, so no apply is made of it, and the
rest of the program is what it would be if nothing was secret.
-/

namespace Provision

open Render Rendering Binding Lowering

/-! ## Readings of settings -/

variable {ty : Ty}

namespace Binding

/-- The types that lie on a walk from a setting. -/
inductive SettingTy : Ty → Prop
  | string : SettingTy .string
  | number : SettingTy .number
  | int : SettingTy .int
  | bool : SettingTy .bool
  | strings : SettingTy (.list .string)
  | any : SettingTy .any
  | error : SettingTy .error

private theorem settingTy_configTy (type : ConfigType) : SettingTy (configTy type) := by
  cases type <;> constructor

theorem SettingTy.isEventual (h : SettingTy ty) : ty.isEventual = false := by
  cases h <;> rfl

theorem SettingTy.step {registry : Schema.Registry} {current next : Ty}
    {accessor normal : Accessor} (hcurrent : SettingTy current)
    (h : Binding.step registry current accessor = .ok (normal, next)) : SettingTy next := by
  cases hcurrent <;> cases accessor <;> cases h <;> constructor

theorem SettingTy.walk (registry : Schema.Registry) {current : Ty} (accessors : List Accessor)
    (hcurrent : SettingTy current) :
    SettingTy (walk registry current accessors).ty ∧
      (walk registry current accessors).eventual = false := by
  induction accessors generalizing current with
  | nil => exact ⟨hcurrent, hcurrent.isEventual⟩
  | cons accessor rest ih =>
    rw [Binding.walk]
    cases hstep : Binding.step registry current accessor with
    | error message => exact ⟨.error, rfl⟩
    | ok stepped =>
      obtain ⟨hty, heventual⟩ := ih (hcurrent.step hstep)
      exact ⟨hty, by simp [hcurrent.isEventual, heventual]⟩

variable {program : Program} {registry : Schema.Registry}

theorem isEventual_of_setting {path : Bound.Path}
    (h : (bind program registry).1.Within (.access path ty)) (hkind : path.kind = .config) :
    ty.isEventual = false := by
  obtain ⟨state, outcome⟩ := exists_outcome program registry
  obtain ⟨subject, site, hevaluates, hsite⟩ := exists_evaluates h
  obtain ⟨-, helaborates⟩ := hevaluates.elaborates outcome
  rw [hsite] at helaborates
  obtain ⟨base, accessors, hroot, -, rfl⟩ :=
    helaborates.shape.access_inv (by rw [hkind]; rfl)
  rw [hkind] at hroot
  cases hroot with
  | @config _ _ type _ _ _ =>
    obtain ⟨hty, heventual⟩ := (settingTy_configTy type).walk registry accessors
    rw [Walk.result]
    split
    · rfl
    · rw [heventual]
      exact hty.isEventual

end Binding

namespace Lowering

variable {program : Program} {registry : Schema.Registry}

theorem kind_ne_config_of_mem {args : List Bound.Expr} {params : List String} {body : Bound.Expr}
    {inner : Ty} {path : Bound.Path}
    (h : (lower (bind program registry).1).Within (.apply args params body ty))
    (harg : .access path inner ∈ args) : path.kind ≠ .config := by
  intro hkind
  obtain ⟨lowered, hlowered, hmem⟩ := h
  rw [lower_eq_map, Bound.Program.expressions_map] at hlowered
  obtain ⟨expr, hexpr, rfl⟩ := List.mem_map.mp hlowered
  obtain ⟨original, hinput, -, hlift⟩ :=
    exists_lift_of_mem (source_bind program registry expr hexpr) hmem
  obtain ⟨rfl, -⟩ := Bound.Expr.apply.inj hlift
  have hcaptured := captured_of_mem_collect harg
  have heventual : inner.isEventual = true := hcaptured.isCapture
  have hplain : inner.isEventual = false := isEventual_of_setting
    ⟨expr, hexpr, Bound.Expr.mem_subexprs_trans hcaptured.mem_subexprs hinput.mem_subexprs⟩ hkind
  simp [hplain] at heventual

end Lowering

/-! ## Disclosed declarations -/

namespace Bound.Node

@[simp] theorem name_disclosed (node : Node) : node.disclosed.name = node.name := rfl

@[simp] theorem isOutput_disclosed (node : Node) : node.disclosed.isOutput = node.isOutput := by
  obtain ⟨name, body⟩ := node
  cases body <;> rfl

@[simp] theorem dependencies_disclosed (node : Node) :
    node.disclosed.dependencies = node.dependencies := by
  obtain ⟨name, body⟩ := node
  cases body <;> rfl

private theorem disclosed_map (f : Expr → Expr) (node : Node) :
    (node.map f).disclosed = node.disclosed.map f := by
  obtain ⟨name, body⟩ := node
  cases body <;> rfl

end Bound.Node

open Bound.Node (disclosed)

theorem Lowering.lower_disclosed (program : Bound.Program) :
    lower program.disclosed = (lower program).disclosed := by
  simp [lower, Bound.Program.disclosed, Function.comp_def, Bound.Node.disclosed_map]

namespace Graph

variable (nodes : List Bound.Node)

theorem declarationOf_disclosed :
    declarationOf (nodes.map disclosed) = declarationOf nodes := by
  funext name
  simp [declarationOf, List.findIdx?_map, Function.comp_def]

theorem order_disclosed : order (nodes.map disclosed) = order nodes := by
  have hedges : dependencyEdges (nodes.map disclosed) = dependencyEdges nodes := by
    simp [dependencyEdges, declarationOf_disclosed, Function.comp_def]
  have houtputs : isOutputAt (nodes.map disclosed) = isOutputAt nodes := by
    funext position
    cases h : nodes[position]? <;> simp [isOutputAt, h]
  rw [order, order, order?, order?, hedges, houtputs]

end Graph

namespace Assembly

variable (nodes : List Bound.Node)

theorem nameAt_disclosed : nameAt (nodes.map disclosed) = nameAt nodes := by
  funext position
  cases h : nodes[position]? <;> simp [nameAt, h]

theorem orderReports_disclosed (ordering : Graph.Ordering) :
    orderReports (nodes.map disclosed) ordering = orderReports nodes ordering := by
  have hcycle : cycleReport (nodes.map disclosed) = cycleReport nodes := by
    funext cycle
    rw [cycleReport, cycleReport, nameAt_disclosed]
  have hblocked : blockedReport (nodes.map disclosed) = blockedReport nodes := by
    funext node member
    rw [blockedReport, blockedReport, nameAt_disclosed]
  rw [orderReports, orderReports, hcycle, hblocked]

theorem isResource_disclosed (node : Bound.Node) : isResource node.disclosed = isResource node := by
  obtain ⟨name, body⟩ := node
  cases body <;> rfl

theorem isReferenced_disclosed :
    isReferenced (nodes.map disclosed) = isReferenced nodes := by
  funext name
  simp [isReferenced, Function.comp_def]

theorem namespaceRoots_disclosed (dialect : Dialect) :
    namespaceRoots dialect (nodes.map disclosed) = namespaceRoots dialect nodes := by
  rw [namespaceRoots, namespaceRoots, List.filterMap_map]
  refine List.filterMap_congr fun node _ => ?_
  obtain ⟨name, body⟩ := node
  cases body <;> rfl

private theorem choosingOrder_disclosed :
    choosingOrder (nodes.map disclosed) =
      (choosingOrder nodes).map (Prod.map disclosed id) := by
  simp [choosingOrder, List.zipIdx_map, List.filter_map, Function.comp_def]

private theorem chooseIdents_disclosed (dialect : Dialect) :
    chooseIdents dialect (nodes.map disclosed) = chooseIdents dialect nodes := by
  simp [chooseIdents, namespaceRoots_disclosed, choosingOrder_disclosed, Function.comp_def]

theorem programEnv_disclosed (target : Target) :
    programEnv target (nodes.map disclosed) = programEnv target nodes := by
  have hdeclare (env : Env) (idents : List (Nat × String)) :
      declareAll env (nodes.map disclosed) idents = declareAll env nodes idents := by
    rw [declareAll, declareAll, namespaceRoots_disclosed]
    refine List.foldl_ext _ _ _ fun env entry _ => ?_
    cases h : nodes[entry.1]? <;> simp [h, Graph.declarationOf_disclosed]
  rw [programEnv, programEnv, chooseIdents_disclosed, hdeclare]

end Assembly

/-! ## Statements of settings -/

variable {target : Target} {name : String} {type : ConfigType}

namespace Render

/-- Whether the statement of a secret setting reads it as a secret. One target does so only for
scalars without a default. -/
def keepsSecret (target : Target) (type : ConfigType) (hasDefault : Bool) : Bool :=
  match target with
  | .go => !hasDefault && type != .stringList && type != .object
  | _ => true

def secretGetter (target : Target) (hasDefault : Bool) : String :=
  match target with
  | .python => if hasDefault then "get_secret" else "require_secret"
  | .typeScript => if hasDefault then "getSecret" else "requireSecret"
  | .go => "RequireSecret"
  | .csharp => if hasDefault then "GetSecret" else "RequireSecret"

def settingOpening (target : Target) (ident : String) : String :=
  match target with
  | .python => ident ++ " = config."
  | .typeScript => "const " ++ ident ++ " = config."
  | .go => ident ++ " := cfg."
  | .csharp => "var " ++ ident ++ " = config."

def secretClosing (target : Target) (default : Option String) : String :=
  match target, default with
  | .python, none => ""
  | .python, some default => " or pulumi.Output.secret(" ++ default ++ ")"
  | .typeScript, none => ";"
  | .typeScript, some default => " ?? pulumi.secret(" ++ default ++ ");"
  | .go, _ => ""
  | .csharp, none => ";"
  | .csharp, some default => " ?? Output.CreateSecret(" ++ default ++ ");"

/-- A statement binds what the getter of secrets gives for a setting, or else its default as a
secret. -/
def ReadsSecret (target : Target) (ident name : String) (hasDefault : Bool) (text : String) :
    Prop :=
  ∃ (kind : String) (default : Option String), '(' ∉ kind.toList ∧ default.isSome = hasDefault ∧
    text = settingOpening target ident ++ secretGetter target hasDefault ++ kind ++ "("
      ++ Text.quote name ++ ")" ++ secretClosing target default

def secretMethod (target : Target) (type : ConfigType) (required : Bool) : String :=
  match target with
  | .python => Python.configMethod type true required
  | .typeScript => TypeScript.configMethod type true required
  | .go => "RequireSecret" ++ Go.configKind type
  | .csharp => CSharp.configMethod type true required

private theorem exists_secretMethod (target : Target) (type : ConfigType) (hasDefault : Bool) :
    ∃ kind : String, '(' ∉ kind.toList ∧
      secretMethod target type (!hasDefault) = secretGetter target hasDefault ++ kind := by
  cases target <;> cases hasDefault <;> cases type <;> exact ⟨_, by decide, rfl⟩

private theorem configStatement_secret {layout : Layout} {ident : String} {default : Option String}
    (hkeeps : keepsSecret target type default.isSome = true) :
    (dialectOf target).configStatement layout ⟨ident, name, type, default, true⟩ =
      settingOpening target ident ++ secretMethod target type (!default.isSome) ++ "("
        ++ Text.quote name ++ ")" ++ secretClosing target default := by
  have hclosing (before opening value closing : String) :
      before ++ opening ++ value ++ closing = before ++ (opening ++ value ++ closing) := by
    simp only [String.append_assoc]
  cases target with
  | go =>
    obtain ⟨⟨rfl, hlist⟩, hobject⟩ : (default = none ∧ type ≠ .stringList) ∧ type ≠ .object := by
      simpa [keepsSecret] using hkeeps
    have htype : Go.objectType? type = none := by
      cases type with
      | stringList | object => contradiction
      | _ => rfl
    have hopening : " := cfg.RequireSecret" = " := cfg." ++ "RequireSecret" := rfl
    change Go.configStatement layout _ = ident ++ " := cfg."
      ++ ("RequireSecret" ++ Go.configKind type) ++ "(" ++ Text.quote name ++ ")" ++ ""
    simp only [Go.configStatement, htype, toString, hopening, if_true, String.append_empty,
      String.append_assoc]
  | python =>
    rw [← Python.string_eq]
    cases default with
    | none => exact (String.append_empty ..).symm
    | some value => exact hclosing _ _ value _
  | typeScript | csharp =>
    cases default with
    | none => rfl
    | some value => exact hclosing _ _ value _

theorem readsSecret_configStatement (layout : Layout) (ident name : String)
    {default : Option String} (hkeeps : keepsSecret target type default.isSome = true) :
    ReadsSecret target ident name default.isSome
      ((dialectOf target).configStatement layout ⟨ident, name, type, default, true⟩) := by
  obtain ⟨kind, hkind, hmethod⟩ := exists_secretMethod target type default.isSome
  refine ⟨kind, default, hkind, rfl, ?_⟩
  rw [configStatement_secret hkeeps, hmethod]
  simp only [String.append_assoc]

theorem configStatement_disclosed {layout : Layout} {parts : ConfigParts}
    (hkeeps : keepsSecret target parts.type parts.default.isSome = false) :
    (dialectOf target).configStatement layout { parts with secret := false } =
      (dialectOf target).configStatement layout parts := by
  obtain ⟨ident, name, type, default, secret⟩ := parts
  cases target with
  | go =>
    cases default with
    | some value => cases type <;> rfl
    | none =>
      cases type with
      | stringList | object => rfl
      | _ => cases hkeeps
  | _ => cases hkeeps

namespace Rendering

variable {α β : Type} {hidden : Bool}

/-- Two renderings that need and refuse the same, and are the same unless something is hidden. -/
structure Alike (hidden : Bool) (left right : Rendering α) : Prop where
  needs : left.needs = right.needs
  failure : left.failure? = right.failure?
  eq : hidden = false → left = right

theorem alike_self (rendering : Rendering α) : Alike hidden rendering rendering :=
  ⟨rfl, rfl, fun _ => rfl⟩

private theorem alike_pure {left right : α} (h : hidden = false → left = right) :
    Alike hidden (pure left) (pure right) :=
  ⟨rfl, rfl, fun hshown => congrArg pure (h hshown)⟩

theorem alike_bind (first : Rendering α) {next next' : α → Rendering β}
    (h : ∀ value, Alike hidden (next value) (next' value)) :
    Alike hidden (first >>= next) (first >>= next') := by
  refine ⟨?_, failure?_bind_congr first fun value => (h value).failure, fun hshown => ?_⟩
  · cases hresult : first.result with
    | ok value => rw [bind_ok _ hresult, bind_ok _ hresult, (h value).needs]
    | error diagnostic => rw [bind_error _ hresult, bind_error _ hresult]
  · exact congrArg _ (funext fun value => (h value).eq hshown)

theorem Alike.result_cases {left right : Rendering α} (h : Alike hidden left right) :
    (∃ value other, left.result = .ok value ∧ right.result = .ok other ∧
      (hidden = false → value = other)) ∨
    ∃ diagnostic, left.result = .error diagnostic ∧ right.result = .error diagnostic := by
  have hfailure := h.failure
  cases hleft : left.result with
  | ok value =>
    cases hright : right.result with
    | ok other =>
      refine .inl ⟨value, other, rfl, rfl, fun hshown => ?_⟩
      rw [h.eq hshown, hright] at hleft
      exact (Except.ok.inj hleft).symm
    | error diagnostic => simp [failure?, hleft, hright] at hfailure
  | error diagnostic =>
    cases hright : right.result with
    | ok other => simp [failure?, hleft, hright] at hfailure
    | error other =>
      obtain rfl : diagnostic = other := by simpa [failure?, hleft, hright] using hfailure
      exact .inr ⟨diagnostic, rfl, rfl⟩

end Rendering

end Render

def Program.KeepsSecret (program : Program) (target : Target) (position : Nat) : Prop :=
  ∃ name type default, program.nodes[position]? = some (.config name type default true) ∧
    keepsSecret target type default.isSome = true

def Bound.Node.keepsSecret (target : Target) (node : Bound.Node) : Bool :=
  match node.body with
  | .config type _ default true => Render.keepsSecret target type default.isSome
  | _ => false

variable {env : Env}

namespace Assembly

theorem alike_renderNode (env : Env) (nodes : List Bound.Node) (ident : String) (isFirst : Bool)
    (node : Bound.Node) :
    Alike (node.keepsSecret env.target) (renderNode env nodes ident isFirst node)
      (renderNode env (nodes.map disclosed) ident isFirst node.disclosed) := by
  obtain ⟨name, body⟩ := node
  cases body with
  | config type valueType default secret =>
    -- Whether secrecy shows depends on there being a default, not on what is rendered of it.
    have hstatement (rendered : Option String) (hdefault : rendered.isSome = default.isSome) :
        Alike (Bound.Node.keepsSecret env.target ⟨name, .config type valueType default secret⟩)
          (Rendering.need (env.dialect.configNeeds type) >>= fun _ => pure
            (env.dialect.configStatement env.layout ⟨ident, name, type, rendered, secret⟩))
          (Rendering.need (env.dialect.configNeeds type) >>= fun _ => pure
            (env.dialect.configStatement env.layout ⟨ident, name, type, rendered, false⟩)) := by
      refine alike_bind _ fun _ => alike_pure fun hshown => ?_
      cases secret with
      | false => rfl
      | true => exact (configStatement_disclosed (hdefault ▸ hshown)).symm
    cases default with
    | none => exact hstatement none rfl
    | some value =>
      simp only [renderNode, disclosed, Bound.Body.disclosed, renderOption,
        bind_assoc, pure_bind]
      exact alike_bind _ fun text => hstatement (some text) rfl
  | resource token properties options | «variable» value =>
    simp only [renderNode, disclosed, Bound.Body.disclosed, isReferenced_disclosed]
    exact alike_self _
  | output value => exact alike_self _

theorem alike_renderAt (env : Env) (nodes : List Bound.Node) (idents : List (Nat × String))
    (isFirst : Bool) (position : Nat) (node : Bound.Node) :
    Alike (node.keepsSecret env.target) (renderAt env nodes idents isFirst position node)
      (renderAt env (nodes.map disclosed) idents isFirst position node.disclosed) := by
  let level := if node.isOutput then env.dialect.outputLevel else env.dialect.baseLevel
  rw [renderAt, renderAt, Bound.Node.isOutput_disclosed]
  exact alike_renderNode { env with level } nodes (identOf idents position) isFirst node

private theorem isSome_of_renderOption {expected : Ty} {value : Option Bound.Expr}
    {rendered : Option String} (h : (renderOption env expected value).result = .ok rendered) :
    rendered.isSome = value.isSome := by
  cases value with
  | none =>
    obtain rfl := Except.ok.inj h
    rfl
  | some value =>
    obtain ⟨written, rfl, -⟩ := exists_of_renderOption h (Option.mem_toList.mpr rfl)
    rfl

theorem readsSecret_of_renderAt {nodes : List Bound.Node} {idents : List (Nat × String)}
    {isFirst : Bool} {position : Nat} {text : String} {valueType : Ty} {value : Option Bound.Expr}
    (htarget : env.target = target) (hkeeps : keepsSecret target type value.isSome = true)
    (h : (renderAt env nodes idents isFirst position
      ⟨name, .config type valueType value true⟩).result = .ok text) :
    ReadsSecret target (identOf idents position) name value.isSome text := by
  subst htarget
  rw [renderAt] at h
  obtain ⟨rendered, hrendered, rfl⟩ := config_of_renderNode h
  rw [← isSome_of_renderOption hrendered] at hkeeps ⊢
  exact readsSecret_configStatement _ _ _ hkeeps

/-! ## Assembled programs -/

def Statement.AlikeUnless (shows : Nat → Prop) (left right : Statement) : Prop :=
  left.mark = right.mark ∧ (shows left.node ∨ left.text = right.text)

structure Progress.AlikeUnless (shows : Nat → Prop) (left right : Progress) : Prop where
  statements : List.Forall₂ (Statement.AlikeUnless shows) left.statements right.statements
  outputs : List.Forall₂ (Statement.AlikeUnless shows) left.outputs right.outputs
  needs : left.needs = right.needs
  diagnostics : left.diagnostics = right.diagnostics
  resources : left.resources = right.resources

structure Assembled.AlikeUnless (shows : Nat → Prop) (left right : Assembled) : Prop where
  statements : List.Forall₂ (Statement.AlikeUnless shows) left.statements right.statements
  imports : left.imports = right.imports
  helpers : left.helpers = right.helpers
  diagnostics : left.diagnostics = right.diagnostics

namespace Progress

variable {shows : Nat → Prop} {left right : Progress}

theorem AlikeUnless.push (h : AlikeUnless shows left right) (node : Bound.Node)
    {added added' : Statement} (hadded : added.AlikeUnless shows added') :
    AlikeUnless shows (left.push node added) (right.push node.disclosed added') := by
  rw [Progress.push, Progress.push, Bound.Node.isOutput_disclosed]
  split
  · exact { h with outputs := List.rel_append h.outputs (.cons hadded .nil) }
  · exact { h with statements := List.rel_append h.statements (.cons hadded .nil) }

theorem AlikeUnless.write {nodes : List Bound.Node} (h : AlikeUnless shows left right)
    (hshows : ∀ position node, nodes[position]? = some node →
      node.keepsSecret env.target = true → shows position) (idents : List (Nat × String))
    (position : Nat) :
    AlikeUnless shows (left.write env nodes idents position)
      (right.write env (nodes.map disclosed) idents position) := by
  cases hnode : nodes[position]? with
  | none => simpa [Progress.write, hnode] using h
  | some node =>
    have hnode' : (nodes.map disclosed)[position]? = some node.disclosed := by
      rw [List.getElem?_map, hnode, Option.map_some]
    -- Both runs have come to the same resource, so the first one is the same for both.
    have halike : Alike (node.keepsSecret env.target)
        (renderAt env nodes idents (left.resources == 0) position node)
        (renderAt env (nodes.map disclosed) idents (right.resources == 0) position
          node.disclosed) := by
      rw [← h.resources]
      exact alike_renderAt ..
    have hneeds : AlikeUnless shows { left with needs := left.needs ++ Rendering.needs _ }
        { right with needs := right.needs ++ Rendering.needs _ } :=
      { h with needs := congrArg₂ (· ++ ·) h.needs halike.needs }
    rw [Progress.write, Progress.write, hnode, hnode']
    rcases halike.result_cases with ⟨text, other, hresult, hresult', htext⟩ |
      ⟨diagnostic, hresult, hresult'⟩
    · have hadded :
          Statement.AlikeUnless shows ⟨position, text, false⟩ ⟨position, other, false⟩ := by
        refine ⟨rfl, ?_⟩
        cases hkeeps : node.keepsSecret env.target with
        | true => exact .inl (hshows position node hnode hkeeps)
        | false => exact .inr (htext hkeeps)
      have hpushed := hneeds.push node hadded
      simp only [hresult, hresult', isResource_disclosed]
      split
      · exact { hpushed with resources := congrArg (· + 1) hpushed.resources }
      · exact hpushed
    · have hadded (text : String) :
          Statement.AlikeUnless shows ⟨position, text, true⟩ ⟨position, text, true⟩ :=
        ⟨rfl, .inr rfl⟩
      have hpushed := hneeds.push node (hadded (env.dialect.comment
        (quoted node.name ++ " was not generated: " ++ diagnostic.message)))
      simp only [hresult, hresult']
      exact { hpushed with
        diagnostics := congrArg (· ++ [diagnostic.withSubject node.name]) hpushed.diagnostics }

end Progress

theorem alike_assemble (program : Bound.Program) (target : Target) {shows : Nat → Prop}
    (hshows : ∀ position node, program.nodes[position]? = some node →
      node.keepsSecret target = true → shows position) :
    (assemble program target).AlikeUnless shows (assemble program.disclosed target) := by
  have htarget : (programEnv target program.nodes).1.target = target :=
    target_programEnv target program.nodes
  have hwritten (positions : List Nat) (left right : Progress)
      (h : Progress.AlikeUnless shows left right) :
      Progress.AlikeUnless shows
        (positions.foldl (Progress.write (programEnv target program.nodes).1 program.nodes
          (programEnv target program.nodes).2) left)
        (positions.foldl (Progress.write (programEnv target program.nodes).1
          (program.nodes.map disclosed) (programEnv target program.nodes).2) right) := by
    induction positions generalizing left right with
    | nil => exact h
    | cons position rest ih => exact ih _ _ (h.write (by rwa [htarget]) _ position)
  have hall : Progress.AlikeUnless shows (writeAll target program.nodes)
      (writeAll target program.disclosed.nodes) := by
    rw [writeAll, writeAll, Bound.Program.disclosed, Graph.order_disclosed, programEnv_disclosed,
      orderReports_disclosed]
    exact hwritten _ _ _ ⟨.nil, .nil, rfl, rfl, rfl⟩
  exact ⟨List.rel_append hall.statements hall.outputs, congrArg importsOf hall.needs,
    congrArg helpersOf hall.needs, hall.diagnostics⟩

/-! ## Programs -/

variable {program : Program} {registry : Schema.Registry} {position : Nat}

theorem exists_setting_iff {node : Bound.Node}
    (h : (lower (bind program registry).1).nodes[position]? = some node)
    {hasDefault secret : Bool} :
    (∃ valueType value, node = ⟨name, .config type valueType value secret⟩ ∧
      value.isSome = hasDefault) ↔
    ∃ default, program.nodes[position]? = some (.config name type default secret) ∧
      default.isSome = hasDefault := by
  obtain ⟨state, outcome⟩ := exists_outcome program registry
  rw [lower, List.getElem?_map] at h
  obtain ⟨bound, hbound, rfl⟩ := Option.map_eq_some_iff.mp h
  obtain ⟨declared, hdeclared, hboundAs⟩ := outcome.exists_declaration hbound
  rw [hdeclared]
  cases hboundAs with
  | @config _ _ default _ value hlength _ =>
    have hsome : value.isSome = default.isSome := by
      cases value <;> cases default <;> simp_all
    constructor
    · rintro ⟨valueType, lowered, hnode, rfl⟩
      obtain ⟨rfl, hbody⟩ := Bound.Node.mk.inj hnode
      obtain ⟨rfl, -, rfl, rfl⟩ := Bound.Body.config.inj hbody
      exact ⟨default, rfl, by simp [hsome]⟩
    · rintro ⟨_, hdeclared, rfl⟩
      obtain ⟨rfl, rfl, rfl, rfl⟩ := Node.config.inj (Option.some.inj hdeclared)
      exact ⟨_, _, rfl, by simp [hsome]⟩
  | _ => simp [Bound.Node.map]

private theorem keepsSecret_of_lower {node : Bound.Node}
    (h : (lower (bind program registry).1).nodes[position]? = some node)
    (hkeeps : node.keepsSecret target = true) : program.KeepsSecret target position := by
  obtain ⟨name, body⟩ := node
  rw [Bound.Node.keepsSecret.eq_def] at hkeeps
  split at hkeeps
  · next type valueType value hbody =>
    obtain rfl : body = _ := hbody
    obtain ⟨default, hdeclared, hsome⟩ := (exists_setting_iff h).mp ⟨valueType, value, rfl, rfl⟩
    exact ⟨name, type, default, hdeclared, hsome ▸ hkeeps⟩
  · simp at hkeeps

/-- Whether a setting is secret shows in its own statement and nowhere else. Readings of it have the
type of the value and no apply is made over them. -/
theorem secrecy_stays_in_statement (program : Program) (registry : Schema.Registry) :
    (∀ path ty, (bind program registry).1.Within (.access path ty) → path.kind = .config →
      ty.isEventual = false) ∧
    (∀ args params body ty,
      (lower (bind program registry).1).Within (.apply args params body ty) →
        ∀ path inner, .access path inner ∈ args → path.kind ≠ .config) ∧
    bind program.disclosed registry =
      ((bind program registry).1.disclosed, (bind program registry).2) ∧
    ∀ target,
      (assemble (lower (bind program registry).1) target).AlikeUnless (program.KeepsSecret target)
        (assemble (lower (bind program.disclosed registry).1) target) ∧
      ∀ statement ∈ (assemble (lower (bind program registry).1) target).statements,
        statement.isMarker = false → ∀ name type default,
          program.nodes[statement.node]? = some (.config name type default true) →
          keepsSecret target type default.isSome = true →
            ReadsSecret target
              (identOf (programEnv target (lower (bind program registry).1).nodes).2 statement.node)
              name default.isSome statement.text := by
  refine ⟨fun _ _ => isEventual_of_setting, fun _ _ _ _ h _ _ => kind_ne_config_of_mem h,
    bind_disclosed program registry, fun target => ⟨?_, ?_⟩⟩
  · rw [bind_disclosed, lower_disclosed]
    exact alike_assemble _ target fun _ _ => keepsSecret_of_lower
  · intro statement hstatement hmarker name type default hdeclared hkeeps
    obtain ⟨node, isFirst, hnode, hrendered⟩ := rendered_of_mem_statements hstatement hmarker
    obtain ⟨valueType, value, rfl, hsome⟩ :=
      (exists_setting_iff hnode).mpr ⟨default, hdeclared, rfl⟩
    rw [← hsome] at hkeeps ⊢
    exact readsSecret_of_renderAt (target_programEnv target _) hkeeps hrendered

def secretBanner : Program :=
  ⟨[.config "password" .string (some (.string "hunter")) true,
    .output "banner" (.template [.text "pw-", .expr (.access ⟨"password", []⟩ none)] none)]⟩

theorem secrecy_stays_in_statement_secretBanner :
    ∃ statement ∈ (assemble (lower (bind secretBanner {}).1) .python).statements,
      statement.isMarker = false ∧ secretBanner.KeepsSecret .python statement.node ∧
        ReadsSecret .python "password" "password" true statement.text := by
  have hstatements : (assemble (lower (bind secretBanner {}).1) .python).statements.head? =
      some ⟨0, "password = config.get_secret(\"password\") or pulumi.Output.secret(\"hunter\")",
        false⟩ := by decide +kernel
  have hident : identOf (programEnv .python (lower (bind secretBanner {}).1).nodes).2 0 =
      "password" := by decide +kernel
  obtain ⟨-, -, -, htarget⟩ := secrecy_stays_in_statement secretBanner {}
  have hmem := List.mem_of_head? hstatements
  have hreads := (htarget .python).2 _ hmem rfl "password" .string (some (.string "hunter")) rfl rfl
  rw [hident] at hreads
  exact ⟨_, hmem, rfl, ⟨_, _, _, rfl, rfl⟩, hreads⟩

/-- The text is made of the secret as if it was at hand, and one target does not even read it as a
secret. -/
theorem formatted_in_place_secretBanner :
    hasErrors (bind secretBanner {}).2 = false ∧
    (¬ ∀ path ty, (bind secretBanner {}).1.Within (.access path ty) → path.root = "password" →
      ty.isEventual = true) ∧
    (lower (bind secretBanner {}).1).nodes[1]? = some ⟨"banner", .output (.template [.text "pw-",
      .expr (.access ⟨"password", .config, []⟩ .string)] .string)⟩ ∧
    (assemble (lower (bind secretBanner {}).1) .go).statements.head? = some ⟨0,
      "password := \"hunter\"\n\t\tif param, err := cfg.Try(\"password\"); err == nil \x7b\n"
        ++ "\t\t\tpassword = param\n\t\t\x7d", false⟩ := by
  refine ⟨by decide +kernel, fun hlaw => ?_, rfl, by decide +kernel⟩
  have hwithin : (bind secretBanner {}).1.Within (.access ⟨"password", .config, []⟩ .string) :=
    ⟨.template [.text "pw-", .expr (.access ⟨"password", .config, []⟩ .string)] .string,
      .tail _ (.head _), .tail _ (.head _)⟩
  exact absurd (hlaw _ _ hwithin rfl) (by decide)

end Assembly

end Provision
