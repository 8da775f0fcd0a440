import Provision.Proofs.Lowering.Applies
import Provision.Proofs.Render.Referents
import Provision.Proofs.Resolution

/-!
# Hygiene of parameters

The parameters of an apply get identifiers that nothing else in the program has. So nothing is
captured: in the body of an apply each placeholder refers to its own parameter, and a reading refers
to the declaration that it names, inside of an apply as well as outside.
-/

namespace Provision.Render

/-- The environment of a spot is that of the program, but for the layout and the parameters of the
callbacks around it. -/
def Spot.Inherits (base : Env) (spot : Spot) : Prop :=
  ∃ level input, spot.env =
    { base with level, input, scopes := spot.callbacks.map (Callback.bindings base.target) }

namespace Spot

variable {base : Env} {spot call other : Spot}

theorem Inherits.step (h : spot.Inherits base) (hcall : spot.Calls call) :
    call.Inherits base := by
  obtain ⟨level, input, henv⟩ := h
  cases hcall with
  | argument => exact ⟨level, false, by rw [moved, henv]; rfl⟩
  | @body args params =>
    obtain ⟨inner, hbody⟩ := bodyEnv_eq spot.env args params
    exact ⟨inner, false, by rw [Spot.body, hbody, henv]; rfl⟩
  | part =>
    obtain ⟨level, input, hinner⟩ := innerEnv_eq spot.env spot.expected spot.value
    exact ⟨level, input, by rw [moved, hinner, henv]⟩

theorem Inherits.reaches (h : spot.Inherits base) (hreaches : spot.Reaches other) :
    other.Inherits base := by
  induction hreaches with
  | self => exact h
  | call hcall _ ih => exact ih (h.step hcall)

end Spot

theorem isIdentifier_of_mem_parameterIdents {env : Env} {params : List String} {ident : String}
    (h : ident ∈ env.parameterIdents params) : Names.IsIdentifier ident.toList := by
  obtain ⟨base, hbase, heq⟩ := Names.Table.exists_base_of_mem_uniqueAll h
  obtain ⟨param, -, rfl⟩ := List.mem_map.mp hbase
  have hproper := isProper_identifier env.target param
  rcases heq with rfl | ⟨number, rfl⟩
  · exact hproper.identifier
  · exact (Assembly.isProper_numbered hproper number).identifier

theorem Go.identifier_append_ne (name suffix : String) :
    Go.identifier name ++ suffix ≠ "_args" := by
  intro h
  have hchars := congrArg String.toList h
  rw [Go.identifier, avoiding, String.toList_append] at hchars
  split at hchars
  · rw [String.toList_append, List.append_assoc, Names.camelCase, String.toList_ofList] at hchars
    exact Names.camel_append_ne (by decide) hchars
  · rw [Names.camelCase, String.toList_ofList] at hchars
    exact Names.camel_append_ne (by decide) hchars

end Provision.Render

namespace Provision.Assembly

open Render

/-! ## Names in use -/

section

variable {β : Type} {step : Env → β → Env} {name : String}
  (hkeep : ∀ env entry, name ∈ env.taken → name ∈ (step env entry).taken)

include hkeep

theorem mem_taken_foldl {env : Env} (h : name ∈ env.taken) (entries : List β) :
    name ∈ (entries.foldl step env).taken := by
  induction entries generalizing env with
  | nil => exact h
  | cons entry rest ih => exact ih (hkeep env entry h)

theorem mem_taken_foldl_of_mem {entries : List β} {entry : β} (hentry : entry ∈ entries)
    (hadds : ∀ env, name ∈ (step env entry).taken) (env : Env) :
    name ∈ (entries.foldl step env).taken := by
  obtain ⟨before, after, rfl⟩ := List.append_of_mem hentry
  rw [List.foldl_append, List.foldl_cons]
  exact mem_taken_foldl hkeep (hadds _) after

end

section

variable {target : Target} {nodes : List Bound.Node} {name : String}

theorem mem_taken_declareAt {env : Env} (entry : Nat × String) (h : name ∈ env.taken) :
    name ∈ (declareAt nodes env entry).taken := by
  unfold declareAt
  split
  · split <;> exact List.mem_cons_of_mem _ h
  · exact h

private theorem ident_mem_taken (h : name ∈ (programEnv target nodes).2.map Prod.snd) :
    name ∈ (programEnv target nodes).1.taken := by
  obtain ⟨⟨position, ident⟩, hentry, rfl⟩ := List.mem_map.mp h
  have hposition : position ∈ List.range nodes.length :=
    (perm_positions_chooseIdents (dialectOf target) nodes).mem_iff.mp (List.mem_map_of_mem hentry)
  have hnode := List.getElem?_eq_getElem (List.mem_range.mp hposition)
  refine mem_taken_foldl_of_mem (fun env entry => mem_taken_declareAt entry) hentry ?_ _
  intro env
  simp only [declareAt, hnode]
  split <;> exact List.mem_cons_self

private theorem namespaceRoot_mem_taken (h : name ∈ namespaceRoots (dialectOf target) nodes) :
    name ∈ (programEnv target nodes).1.taken := by
  refine mem_taken_foldl (fun env entry => mem_taken_declareAt entry) ?_ _
  exact mem_taken_foldl_of_mem (fun env root => List.mem_cons_of_mem _) h
    (fun env => List.mem_cons_self) _

end

/-! ## Parameters -/

/-- Each parameter of a callback has an identifier of its own, which is no reserved word, no
identifier of a declaration, no name of a provider module of a resource, and bound by no callback
around. -/
structure Fresh (target : Target) (nodes : List Bound.Node) (outer : List Callback)
    (callback : Callback) : Prop where
  length_eq : callback.idents.length = callback.params.length
  nodup : callback.idents.Nodup
  reserved : ∀ ident ∈ callback.idents, ident ∉ (dialectOf target).reserved
  declared : ∀ ident ∈ callback.idents, ident ∉ (programEnv target nodes).2.map Prod.snd
  provided : ∀ ident ∈ callback.idents, ident ∉ namespaceRoots (dialectOf target) nodes
  enclosing : ∀ ident ∈ callback.idents, ∀ enclosing ∈ outer,
    ident ∉ (enclosing.bindings target).map Prod.snd

theorem fresh_ofApply {target : Target} {nodes : List Bound.Node} {spot : Spot}
    (h : spot.Inherits (programEnv target nodes).1) (args : List Bound.Expr)
    (params : List String) :
    Fresh target nodes spot.callbacks (.ofApply spot.env args params) := by
  obtain ⟨level, input, henv⟩ := h
  have htarget := target_programEnv target nodes
  rw [htarget] at henv
  have hfree : ∀ ident ∈ spot.env.parameterIdents params, ident ∉ (dialectOf target).reserved ∧
      ident ∉ (programEnv target nodes).1.taken ∧
      ident ∉ (spot.callbacks.map (Callback.bindings target)).flatMap (·.map Prod.snd) := by
    intro ident hident
    have hunused := Names.Table.not_mem_used_of_mem_uniqueAll hident
    rw [henv] at hunused
    simpa [Names.Table.withReserved, Env.dialect, htarget, and_assoc] using hunused
  refine ⟨by simp [Callback.ofApply, Env.parameterIdents], Names.Table.nodup_uniqueAll _ _,
    fun ident hident => (hfree ident hident).1, ?_, ?_, ?_⟩
  · exact fun ident hident hmem => (hfree ident hident).2.1 (ident_mem_taken hmem)
  · exact fun ident hident hmem => (hfree ident hident).2.1 (namespaceRoot_mem_taken hmem)
  · intro ident hident enclosing henclosing hmem
    exact (hfree ident hident).2.2
      (List.mem_flatMap.mpr ⟨_, List.mem_map_of_mem henclosing, hmem⟩)

/-! ## Lowered declarations -/

open Lowering (lowerInput lift)

/-- Where rendering can be in a lowered expression: outside of all callbacks and not at a parameter,
or in the one callback around it, whose parameters are the only ones that are read there. -/
inductive Stage (target : Target) (nodes : List Bound.Node) (lowered : Bound.Expr) (spot : Spot) :
    Prop
  | outside : spot.callbacks = [] → spot.value ∈ lowered.subexprs →
      (∀ name, ¬ Bound.Expr.Free name spot.value) → Stage target nodes lowered spot
  | inside {callback : Callback} : spot.callbacks = [callback] → spot.value ∈ lowered.subexprs →
      callback.params.Nodup → Fresh target nodes [] callback →
      (∀ ident ∈ callback.idents, Names.IsIdentifier ident.toList) →
      (∀ part ∈ spot.value.subexprs, part.isSource = true ∨
        ∃ param ∈ callback.params, ∃ ty, part = .placeholder param ty) →
      Stage target nodes lowered spot

namespace Stage

variable {target : Target} {nodes : List Bound.Node} {lowered expr : Bound.Expr}
  {spot call other : Spot}

theorem mem_subexprs (h : Stage target nodes lowered spot) : spot.value ∈ lowered.subexprs := by
  cases h with
  | outside _ hmem _ | inside _ hmem _ _ _ _ => exact hmem

theorem not_apply_of_inside {value : Bound.Expr} {params : List String}
    (hparts : ∀ part ∈ value.subexprs, part.isSource = true ∨
      ∃ param ∈ params, ∃ ty, part = .placeholder param ty)
    (args : List Bound.Expr) (names : List String) (body : Bound.Expr) (ty : Ty) :
    value ≠ .apply args names body ty := by
  rintro rfl
  simpa [Bound.Expr.isSource] using hparts _ (Bound.Expr.self_mem_subexprs _)

theorem step (hsource : expr.Source) (hinherits : spot.Inherits (programEnv target nodes).1)
    (h : Stage target nodes (lowerInput expr) spot) (hcall : spot.Calls call) :
    Stage target nodes (lowerInput expr) call := by
  have hbelow {part : Bound.Expr} (hpart : part ∈ spot.value.children) :
      part ∈ (lowerInput expr).subexprs :=
    Bound.Expr.mem_subexprs_trans (Bound.Expr.mem_subexprs_of_child hpart
      (Bound.Expr.self_mem_subexprs part)) h.mem_subexprs
  cases h with
  | outside hnone hmem hclosed =>
    cases hcall with
    | argument hvalue harg =>
      rw [hvalue] at hbelow hclosed
      refine .outside hnone (hbelow (List.mem_append_left _ harg)) fun name hfree => ?_
      exact hclosed name (.outer harg hfree)
    | @body args params body ty hvalue =>
      rw [hvalue] at hbelow hmem
      -- The apply was made by lifting an expression, so its body reads no other parameters.
      obtain ⟨original, hinput, -, hlift⟩ := Lowering.exists_lift_of_mem hsource hmem
      obtain ⟨rfl, rfl, rfl, -⟩ := Bound.Expr.apply.inj hlift
      have hfresh := fresh_ofApply hinherits (Lowering.collect [] original)
        (Lowering.parameterNames original.referencedRoots (Lowering.collect [] original))
      rw [hnone] at hfresh
      refine .inside (by rw [Spot.body, hnone])
        (hbelow (List.mem_append_right _ (List.mem_singleton.mpr rfl)))
        (Lowering.nodup_parameterNames _ _) hfresh
        (fun ident => isIdentifier_of_mem_parameterIdents) fun part hpart => ?_
      obtain ⟨-, -, -, hkept | ⟨param, hparam, heq⟩⟩ :=
        Lowering.exists_of_mem_substitute (hsource.of_mem hinput.mem_subexprs) hpart
      · exact .inl hkept
      · exact .inr ⟨param, hparam, part.ty, heq⟩
    | part hother hplace =>
      have hchild := mem_children_of_mem_places hplace
      refine .outside hnone (hbelow hchild) fun name hfree => hclosed name (.outer ?_ hfree)
      rwa [Bound.Expr.outer_of_ne_apply hother]
  | inside hone hmem hnodup hfresh hidents hparts =>
    -- There is no apply inside of a callback, so no further callback is entered.
    cases hcall with
    | argument hvalue | body hvalue => exact absurd hvalue (not_apply_of_inside hparts _ _ _ _)
    | part hother hplace =>
      have hchild := mem_children_of_mem_places hplace
      refine .inside hone (hbelow hchild) hnodup hfresh hidents fun part hpart => ?_
      exact hparts part (Bound.Expr.mem_subexprs_of_child hchild hpart)

theorem reaches (hsource : expr.Source) (hinherits : spot.Inherits (programEnv target nodes).1)
    (h : Stage target nodes (lowerInput expr) spot) (hreaches : spot.Reaches other) :
    Stage target nodes (lowerInput expr) other := by
  induction hreaches with
  | self => exact h
  | call hcall _ ih => exact ih (hinherits.step hcall) (h.step hsource hinherits hcall)

theorem paired (hsource : expr.Source) (h : Stage target nodes (lowerInput expr) spot) :
    spot.Paired := by
  intro args params body ty hvalue
  cases h with
  | outside _ hmem _ =>
    rw [hvalue] at hmem
    obtain ⟨original, -, -, hlift⟩ := Lowering.exists_lift_of_mem hsource hmem
    obtain ⟨rfl, rfl, -⟩ := Bound.Expr.apply.inj hlift
    exact .inr (Lowering.length_parameterNames _ _).ge
  | inside _ _ _ _ _ hparts => exact absurd hvalue (not_apply_of_inside hparts _ _ _ _)

end Stage

/-! ## Programs -/

theorem identOf_not_mem_locals {target : Target} {nodes : List Bound.Node} {callback : Callback}
    (hfresh : Fresh target nodes [] callback) {position : Nat} (hlt : position < nodes.length) :
    identOf (programEnv target nodes).2 position ∉ callback.locals target := by
  obtain ⟨ident, hident, hentry⟩ := exists_ident target hlt
  have heq : identOf (programEnv target nodes).2 position = ident := by
    simp [programEnv, identOf, hident]
  have howned : ident ∉ callback.idents := fun hmem =>
    hfresh.declared ident hmem (List.mem_map.mpr ⟨_, hentry, rfl⟩)
  have hreserved := (ident_not_mem hentry).1
  rw [heq]
  cases target with
  | python =>
    rw [Callback.locals]
    split
    · exact howned
    · intro hmem
      rw [List.mem_singleton.mp hmem] at hreserved
      exact hreserved (by decide)
  | typeScript => exact howned
  | go =>
    rw [Callback.locals]
    split
    · exact howned
    · refine List.not_mem_cons_of_ne_of_not_mem ?_ howned
      -- `_args` is not reserved, but no identifier is spelled so.
      obtain ⟨base, hbase, hfrom⟩ := Names.Table.exists_base_of_mem_uniqueAll
        (mem_uniqueAll_of_mem_chooseIdents hentry)
      obtain ⟨entry, -, rfl⟩ := List.mem_map.mp hbase
      rcases hfrom with rfl | ⟨number, rfl⟩
      · exact fun h => Go.identifier_append_ne entry.1.name "" (String.append_empty.trans h)
      · exact Go.identifier_append_ne entry.1.name _
  | csharp =>
    rw [Callback.locals]
    split
    · exact howned
    · refine List.not_mem_cons_of_ne_of_not_mem ?_ howned
      rintro rfl
      exact hreserved (by decide)

def nodeEnv (target : Target) (nodes : List Bound.Node) (node : Bound.Node) : Env :=
  let env := (programEnv target nodes).1
  { env with level := if node.isOutput then env.dialect.outputLevel else env.dialect.baseLevel }

def Visits (target : Target) (nodes : List Bound.Node) (position : Nat) (spot : Spot) : Prop :=
  ∃ node start, nodes[position]? = some node ∧ start ∈ nodeSpots (nodeEnv target nodes node) node ∧
    start.Reaches spot

theorem exists_visits (target : Target) {nodes : List Bound.Node} {position : Nat}
    {node : Bound.Node} {slot : Ty} {value : Bound.Expr} (hnode : nodes[position]? = some node)
    (h : StandsIn node slot value) :
    ∃ spot, Visits target nodes position spot ∧ spot.expected = slot ∧ spot.value = value := by
  obtain ⟨place, hplace, hstands⟩ := h
  obtain ⟨start, hstart, -, hexpected, hvalue⟩ :=
    exists_nodeSpot (nodeEnv target nodes node) hplace
  rw [← hexpected, ← hvalue] at hstands
  obtain ⟨spot, hreaches, heq⟩ := hstands.exists_reaches
  exact ⟨spot, ⟨node, start, hnode, hstart, hreaches⟩, heq⟩

theorem of_mem_nodeSpots {env : Env} {node : Bound.Node} {spot : Spot}
    (h : spot ∈ nodeSpots env node) :
    (∃ level input, spot.env = { env with level, input }) ∧ spot.callbacks = [] ∧
      spot.value ∈ node.expressions := by
  obtain ⟨name, body⟩ := node
  cases body with
  | config type valueType default secret =>
    obtain ⟨value, hvalue, rfl⟩ := List.mem_map.mp h
    exact ⟨⟨_, _, rfl⟩, rfl, hvalue⟩
  | resource token properties options =>
    rcases List.mem_append.mp h with h | h
    · obtain ⟨slot, hslot, rfl⟩ := List.mem_map.mp h
      exact ⟨⟨_, _, rfl⟩, rfl, List.mem_append_left _ (List.mem_map_of_mem hslot)⟩
    · obtain ⟨place, hplace, rfl⟩ := List.mem_map.mp h
      refine ⟨⟨_, _, rfl⟩, rfl, List.mem_append_right _ ?_⟩
      have hvalues : (optionPlaces options).map Prod.snd = options.values := by
        simp [optionPlaces, Bound.Options.values, Function.comp_def]
      exact hvalues ▸ List.mem_map_of_mem hplace
  | «variable» value | output value =>
    obtain rfl := List.mem_singleton.mp h
    exact ⟨⟨_, _, rfl⟩, rfl, List.mem_singleton.mpr rfl⟩

section

variable {target : Target} {nodes : List Bound.Node} {node : Bound.Node} {start spot : Spot}

theorem inherits_of_mem_nodeSpots (h : start ∈ nodeSpots (nodeEnv target nodes node) node) :
    start.Inherits (programEnv target nodes).1 := by
  obtain ⟨⟨level, input, henv⟩, hnone, -⟩ := of_mem_nodeSpots h
  refine ⟨level, input, ?_⟩
  rw [henv, hnone, List.map_nil, ← scopes_programEnv target nodes]
  rfl

theorem Visits.inherits {position : Nat} (h : Visits target nodes position spot) :
    spot.Inherits (programEnv target nodes).1 := by
  obtain ⟨node, start, -, hstart, hreaches⟩ := h
  exact (inherits_of_mem_nodeSpots hstart).reaches hreaches

theorem stage_of_mem_nodeSpots {expr : Bound.Expr} (hsource : expr.Source)
    (h : start ∈ nodeSpots (nodeEnv target nodes node) node)
    (hvalue : start.value = lowerInput expr) :
    Stage target nodes (lowerInput expr) start := by
  obtain ⟨-, hnone, -⟩ := of_mem_nodeSpots h
  refine .outside hnone (hvalue ▸ Bound.Expr.self_mem_subexprs _) fun name => ?_
  rw [hvalue]
  exact Lowering.not_free_lowerInput hsource name

end

/-- What is written at a spot refers to what is meant: a placeholder to its own parameter, a reading
to the declaration that it names. All of it stands in the statement of the declaration, if there is
one. -/
structure Faithful (target : Target) (nodes : List Bound.Node) (position : Nat) (spot : Spot) :
    Prop where
  parameter : ∀ name ty, spot.value = .placeholder name ty → ∃ callback text,
    spot.callbacks.find? (·.params.contains name) = some callback ∧
    (render spot.env spot.expected spot.value).result = .ok text ∧
    referent? target (programEnv target nodes).2 spot.callbacks text =
      some (.parameter callback name)
  reading : ∀ path ty, spot.value = .access path ty → path.kind.isInput = false →
    ∃ declared text, Graph.declarationOf nodes path.root = some declared ∧
    (render spot.env spot.expected spot.value).result = .ok text ∧
    referent? target (programEnv target nodes).2 spot.callbacks text = some (.declaration declared)
  written : ∀ isFirst node statement, nodes[position]? = some node →
    (renderAt (programEnv target nodes).1 nodes (programEnv target nodes).2 isFirst position
      node).result = .ok statement →
    ∃ text, (render spot.env spot.expected spot.value).result = .ok text ∧
      Text.Within text statement

section

variable {target : Target} {nodes : List Bound.Node} {lowered : Bound.Expr} {spot : Spot}

theorem Stage.exists_parameter (h : Stage target nodes lowered spot)
    (hinherits : spot.Inherits (programEnv target nodes).1) {name : String} {ty : Ty}
    (hvalue : spot.value = .placeholder name ty) :
    ∃ callback text, spot.callbacks.find? (·.params.contains name) = some callback ∧
      (render spot.env spot.expected spot.value).result = .ok text ∧
      referent? target (programEnv target nodes).2 spot.callbacks text =
        some (.parameter callback name) := by
  cases h with
  | outside _ _ hclosed =>
    rw [hvalue] at hclosed
    exact absurd .self (hclosed name)
  | @inside callback hone _ hnodup hfresh hidents hparts =>
    have hname : name ∈ callback.params := by
      rw [hvalue] at hparts
      simpa [Bound.Expr.isSource] using hparts _ (Bound.Expr.self_mem_subexprs _)
    obtain ⟨text, htext, hlookup, hparameter⟩ :=
      Callback.exists_text target hnodup hfresh.nodup hfresh.length_eq hname
    refine ⟨callback, text, by simp [hone, hname], ?_, ?_⟩
    · obtain ⟨level, input, henv⟩ := hinherits
      rw [target_programEnv, hone] at henv
      rw [hvalue, render, Env.parameter?, henv]
      simp [hlookup]
    · rw [hone, referent?, if_pos (leadingName_mem_locals hidents htext), hparameter]
      rfl

theorem Stage.exists_reading (h : Stage target nodes lowered spot)
    (hinherits : spot.Inherits (programEnv target nodes).1) {path : Bound.Path} {ty : Ty}
    (hvalue : spot.value = .access path ty) (hkind : path.kind.isInput = false) {declared : Nat}
    (hdeclared : Graph.declarationOf nodes path.root = some declared) :
    ∃ text, (render spot.env spot.expected spot.value).result = .ok text ∧
      referent? target (programEnv target nodes).2 spot.callbacks text =
        some (.declaration declared) := by
  obtain ⟨hlt, -⟩ := List.findIdx?_eq_some_iff_getElem.mp hdeclared
  have hroot : spot.env.identifierFor path.root = identOf (programEnv target nodes).2 declared := by
    obtain ⟨level, input, henv⟩ := hinherits
    rw [henv, ← identifierFor_programEnv hdeclared]
    rfl
  have htarget : spot.env.dialect = dialectOf target := by
    obtain ⟨level, input, henv⟩ := hinherits
    rw [henv, Env.dialect, target_programEnv]
  have hident : Names.IsIdentifier (identOf (programEnv target nodes).2 declared).toList := by
    obtain ⟨ident, hident, hentry⟩ := exists_ident target hlt
    simpa [programEnv, identOf, hident] using (isProper_of_mem_chooseIdents hentry).identifier
  have hleading := leadingName_access target path hident
  refine ⟨(dialectOf target).access path (identOf (programEnv target nodes).2 declared), ?_, ?_⟩
  · rw [hvalue, render, access, hroot, htarget]
    cases hpath : path.kind with
    | input input => simp [hpath, Bound.RootKind.isInput] at hkind
    | _ => rfl
  · rw [referent?_of_not_mem, hleading, find?_identOf target hlt]
    · rfl
    intro callback hcallback
    rw [hleading]
    cases h with
    | outside hnone => simp [hnone] at hcallback
    | inside hone _ _ hfresh _ _ =>
      rw [hone, List.mem_singleton] at hcallback
      exact hcallback ▸ identOf_not_mem_locals hfresh hlt

end

open Binding (bind)
open Lowering (lower)

theorem faithful_of_visits {target : Target} {program : Program} {registry : Schema.Registry}
    {position : Nat} {spot : Spot}
    (h : Visits target (lower (bind program registry).1).nodes position spot) :
    Faithful target (lower (bind program registry).1).nodes position spot := by
  have hinherits := h.inherits
  obtain ⟨node, start, hnode, hstart, hreaches⟩ := h
  obtain ⟨-, -, hmem⟩ := of_mem_nodeSpots hstart
  obtain ⟨expr, hsource, hlowered⟩ : ∃ expr : Bound.Expr, expr.Source ∧
      start.value = lowerInput expr := by
    rw [lower, List.getElem?_map] at hnode
    obtain ⟨original, horiginal, rfl⟩ := Option.map_eq_some_iff.mp hnode
    rw [Bound.Node.expressions_map] at hmem
    obtain ⟨expr, hexpr, heq⟩ := List.mem_map.mp hmem
    refine ⟨expr, Binding.source_bind program registry expr ?_, heq.symm⟩
    exact List.mem_flatMap.mpr ⟨original, List.mem_of_getElem? horiginal, hexpr⟩
  have hstage := stage_of_mem_nodeSpots hsource hstart hlowered
  have hspot := hstage.reaches hsource (inherits_of_mem_nodeSpots hstart) hreaches
  refine ⟨fun name ty => hspot.exists_parameter hinherits, fun path ty hvalue hkind => ?_, ?_⟩
  · have haccess : (lower (bind program registry).1).AccessAt position path ty :=
      ⟨node, start.value, hnode, hmem, by rw [hlowered, ← hvalue]; exact hspot.mem_subexprs⟩
    obtain ⟨_, haccess⟩ := Lowering.accessAt_lower.mp ⟨ty, haccess⟩
    obtain ⟨declared, _, hstands⟩ := exists_standsFor target haccess hkind
    obtain ⟨text, htext⟩ := hspot.exists_reading hinherits hvalue hkind hstands.ordered
    exact ⟨declared, text, hstands.ordered, htext⟩
  · intro isFirst other statement hother hstatement
    obtain rfl : node = other := Option.some.inj (hnode.symm.trans hother)
    obtain ⟨outer, houter, hwithin⟩ := exists_within_of_nodeSpots hstart hstatement
    have hpaired {inner : Spot} (hinner : start.Reaches inner) : inner.Paired :=
      (hstage.reaches hsource (inherits_of_mem_nodeSpots hstart) hinner).paired hsource
    obtain ⟨written, hwritten, hpart⟩ := hreaches.exists_within hpaired houter
    obtain ⟨text, htext, hplaced⟩ := exists_rendered hwritten
    exact ⟨text, htext, (hplaced.trans hpart).trans hwithin⟩

/-- Rendering comes to every value that stands in a declaration. Every apply on the way is written
with new identifiers for its parameters. In a lowered program nothing is captured. -/
theorem parameters_hygienic (target : Target) :
    (∀ nodes position node slot value, nodes[position]? = some node → StandsIn node slot value →
      ∃ spot, Visits target nodes position spot ∧ spot.expected = slot ∧ spot.value = value) ∧
    (∀ nodes position spot args params body ty, Visits target nodes position spot →
      spot.value = .apply args params body ty →
        Fresh target nodes spot.callbacks (.ofApply spot.env args params) ∧
        ∀ text, (render spot.env spot.expected spot.value).result = .ok text →
          ∃ sources written, (spot.body args params body).rendering.result = .ok written ∧
            text = (dialectOf target).apply spot.env.layout ⟨sources,
              (Callback.ofApply spot.env args params).idents, written, body.ty.withoutEventual⟩) ∧
    ∀ program registry position spot,
      Visits target (lower (bind program registry).1).nodes position spot →
        Faithful target (lower (bind program registry).1).nodes position spot := by
  refine ⟨fun nodes position node slot value => exists_visits target, ?_,
    fun program registry position spot => faithful_of_visits⟩
  intro nodes position spot args params body ty hvisits hvalue
  have hinherits := hvisits.inherits
  refine ⟨fresh_ofApply hinherits args params, fun text htext => ?_⟩
  rw [hvalue] at htext
  obtain ⟨sources, written, -, hwritten, rfl⟩ := text_of_apply htext
  obtain ⟨level, input, henv⟩ := hinherits
  refine ⟨sources, written, hwritten, ?_⟩
  rw [henv, Env.dialect, target_programEnv]
  rfl

def shadowing : Program :=
  ⟨[.resource "bucket" "aws:s3:Bucket" [] {}, .variable "Id" (.literal (.string "main") none),
    .variable "label" (.template [.expr (.access ⟨"bucket", [.field "id"]⟩ none), .text "-",
      .expr (.access ⟨"Id", []⟩ none)] none)]⟩

def shadowingNodes : List Bound.Node := (lower (bind shadowing Binding.bucketRegistry).1).nodes

def shadowingBody : Bound.Expr :=
  .template [.expr (.placeholder "id" .string), .text "-",
    .expr (.access ⟨"Id", .variable, []⟩ .string)] .string

def shadowingApply : Bound.Expr :=
  .apply [Lowering.bucketId "bucket"] ["id"] shadowingBody (.eventual .string)

def shadowingLabel : Bound.Node := ⟨"label", .variable shadowingApply⟩

theorem shadowingNodes_label : shadowingNodes[2]? = some shadowingLabel := by
  let text : Bound.Expr := .template [.expr (Lowering.bucketId "bucket"), .text "-",
    .expr (.access ⟨"Id", .variable, []⟩ .string)] (.eventual .string)
  have hcollect : Lowering.collect [] text = [Lowering.bucketId "bucket"] := by
    simp [text, Lowering.bucketId, Lowering.collect, Lowering.collectParts, Lowering.isCapture,
      Ty.isEventual, Lowering.addCapture]
  have hparams : Lowering.parameterNames text.referencedRoots [Lowering.bucketId "bucket"] =
      ["id"] := by decide +kernel
  have hbody : Lowering.substitute [Lowering.bucketId "bucket"] ["id"] text = shadowingBody := by
    simp [text, shadowingBody, Lowering.bucketId, Lowering.substitute, Lowering.substituteParts,
      Lowering.isCapture, Ty.isEventual, Lowering.parameterOf, Bound.Expr.same, Ty.withoutEventual]
  have hlift : lift text = shadowingApply := by
    simp only [lift, hcollect, hparams, hbody]
    rfl
  rw [shadowingLabel, ← hlift]
  rfl

theorem parameters_hygienic_shadowing :
    (shadowingNodes[2]? = some shadowingLabel ∧
      StandsIn shadowingLabel .any (.placeholder "id" .string) ∧
      ∃ spot, Visits .python shadowingNodes 2 spot ∧ spot.expected = .any ∧
        spot.value = .placeholder "id" .string) ∧
    ∃ whole placeholder reading : Spot,
      (Visits .python shadowingNodes 2 whole ∧ Fresh .python shadowingNodes whole.callbacks
        ⟨["id"], ["id2"], 1⟩) ∧
      (Visits .python shadowingNodes 2 placeholder ∧
        referent? .python (programEnv .python shadowingNodes).2 placeholder.callbacks "id2" =
          some (.parameter ⟨["id"], ["id2"], 1⟩ "id")) ∧
      Visits .python shadowingNodes 2 reading ∧
        referent? .python (programEnv .python shadowingNodes).2 reading.callbacks "id" =
          some (.declaration 1) := by
  let whole : Spot :=
    ⟨(nodeEnv .python shadowingNodes shadowingLabel).plain, [], .any, shadowingApply⟩
  let body := whole.body [Lowering.bucketId "bucket"] ["id"] shadowingBody
  let placeholder := body.moved (innerEnv body.env body.expected body.value)
    (.any, .placeholder "id" .string)
  let reading := body.moved (innerEnv body.env body.expected body.value)
    (.any, .access ⟨"Id", .variable, []⟩ .string)
  have hvisits {spot : Spot} (h : whole.Reaches spot) : Visits .python shadowingNodes 2 spot :=
    ⟨shadowingLabel, whole, shadowingNodes_label, List.mem_singleton.mpr rfl, h⟩
  have hplaceholder : Visits .python shadowingNodes 2 placeholder :=
    hvisits (.call (.body rfl) (.call (.part (by simp [Spot.body, shadowingBody])
      (List.mem_cons_self)) .self))
  have hreading : Visits .python shadowingNodes 2 reading :=
    hvisits (.call (.body rfl) (.call (.part (by simp [Spot.body, shadowingBody])
      (List.mem_cons_of_mem _ List.mem_cons_self)) .self))
  have hcallback : Callback.ofApply whole.env [Lowering.bucketId "bucket"] ["id"] =
      ⟨["id"], ["id2"], 1⟩ := by decide +kernel
  have hstands : StandsIn shadowingLabel .any (.placeholder "id" .string) :=
    ⟨(.any, shadowingApply), List.mem_singleton.mpr rfl, .under
      (List.mem_append_right _ (List.mem_singleton.mpr rfl)) (.under List.mem_cons_self .self)⟩
  obtain ⟨hcovered, hfresh, hfaithful⟩ := parameters_hygienic .python
  obtain ⟨hidents, -⟩ := hfresh shadowingNodes 2 whole _ _ _ _ (hvisits .self) rfl
  obtain ⟨callback, text, hfound, hrendered, hparameter⟩ :=
    (hfaithful shadowing Binding.bucketRegistry 2 placeholder hplaceholder).parameter _ _ rfl
  obtain ⟨declared, text', hdeclared, hrendered', hdeclaration⟩ :=
    (hfaithful shadowing Binding.bucketRegistry 2 reading hreading).reading _ _ rfl rfl
  have hcallbacks : body.callbacks = [⟨["id"], ["id2"], 1⟩] := congrArg ([·]) hcallback
  obtain rfl : ⟨["id"], ["id2"], 1⟩ = callback := by
    have hfirst : body.callbacks.find? (·.params.contains "id") = some callback := hfound
    rw [hcallbacks] at hfirst
    exact Option.some.inj hfirst
  obtain rfl : "id2" = text := by
    have hlookup : placeholder.env.parameter? "id" = some "id2" := by decide +kernel
    have htext : (render placeholder.env .any (.placeholder "id" .string)).result = .ok "id2" := by
      rw [render, hlookup]
      rfl
    exact Except.ok.inj (htext.symm.trans hrendered)
  obtain rfl : 1 = declared := Option.some.inj hdeclared
  obtain rfl : "id" = text' := by
    have hident : reading.env.identifierFor "Id" = "id" := by decide +kernel
    have htext : (render reading.env .any (.access ⟨"Id", .variable, []⟩ .string)).result =
        .ok "id" := by
      rw [render, access, hident]
      rfl
    exact Except.ok.inj (htext.symm.trans hrendered')
  rw [hcallback] at hidents
  refine ⟨⟨shadowingNodes_label, hstands, hcovered _ _ _ _ _ shadowingNodes_label hstands⟩, ?_⟩
  exact ⟨whole, placeholder, reading, ⟨hvisits .self, hidents⟩, ⟨hplaceholder, hparameter⟩,
    hreading, hdeclaration⟩

end Provision.Assembly
