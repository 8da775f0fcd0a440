import Provision.Proofs.Binding.Fitting

/-!
# Eventual types are eventual as a whole

No type of a bound program is eventual somewhere inside: it is free of `eventual`, or it is one
`eventual` over a type that is. What a slot expects is never eventual. This holds of every program,
whether it is accepted or not, and it is why one `withoutEventual` strips all there is.
-/

namespace Provision

namespace Ty

mutual

def noEventual : Ty → Bool
  | .list element => noEventual element
  | .map values => noEventual values
  | .union members => noEventualAll members
  | .optional inner => noEventual inner
  | .eventual _ => false
  | _ => true

def noEventualAll : List Ty → Bool
  | [] => true
  | member :: rest => noEventual member && noEventualAll rest

end

mutual

theorem noEventual_of_bare : (ty : Ty) → ty.bare = true → ty.noEventual = true
  | .list element, h => noEventual_of_bare element h
  | .map values, h => noEventual_of_bare values h
  | .optional inner, h => noEventual_of_bare inner h
  | .union members, h => noEventualAll_of_bareAll members h
  | .eventual _, h => absurd h Bool.false_ne_true
  | .string, _ | .number, _ | .int, _ | .bool, _ | .null, _ | .any, _ | .asset, _ | .archive, _
  | .object _, _ | .resource _, _ | .error, _ => rfl

theorem noEventualAll_of_bareAll : (members : List Ty) → bareAll members = true →
    noEventualAll members = true
  | [], _ => rfl
  | member :: rest, h => by
    obtain ⟨hmember, hrest⟩ := Bool.and_eq_true_iff.mp h
    rw [noEventualAll, noEventual_of_bare member hmember, noEventualAll_of_bareAll rest hrest]
    rfl

end

theorem hereditary_noEventual : Hereditary fun ty => ty.noEventual = true :=
  ⟨⟨noEventual_of_bare _, Bool.false_ne_true, Iff.rfl, Iff.rfl, Iff.rfl⟩, rfl⟩

def EventualOutermost (ty : Ty) : Prop :=
  ty.noEventual = true ∨ ∃ inner, ty = .eventual inner ∧ inner.noEventual = true

theorem eventualOutermost_of_withoutEventual {ty : Ty} (h : ty.withoutEventual.noEventual = true) :
    ty.EventualOutermost := by
  rcases ty.eq_or_eq_eventual with hty | hty
  · exact .inl (hty ▸ h)
  · exact .inr ⟨_, hty, h⟩

end Ty

namespace Binding

section

variable {program : Program} {registry : Schema.Registry}

theorem noEventual_of_within {part : Bound.Expr} (h : (bind program registry).1.Within part) :
    part.ty.withoutEventual.noEventual = true := by
  obtain ⟨state, outcome⟩ := exists_outcome program registry
  obtain ⟨subject, site, hevaluates, rfl⟩ := exists_evaluates h
  obtain ⟨hbare, helaborates⟩ := hevaluates.elaborates outcome
  exact helaborates.hereditary Ty.hereditary_noEventual
    (outcome.consistent.hereditary_of_known Ty.hereditary_noEventual) hbare _
    (Bound.Expr.self_mem_subexprs _)

theorem Evaluates.bare_of_slot {subject : String} {site : Site}
    (h : Evaluates program (bind program registry).1 subject site) {slot : Ty}
    {value : Bound.Expr} (hslot : (slot, value) ∈ site.bound.slots) : slot.bare = true := by
  obtain ⟨state, outcome⟩ := exists_outcome program registry
  obtain ⟨hbare, helaborates⟩ := h.elaborates outcome
  obtain ⟨item, hsite⟩ := helaborates.shape.exists_site_of_slot hslot
  exact helaborates.shape.bare_slot hbare hsite

theorem Outcome.bare_of_slot {state : State} (outcome : Outcome program registry state)
    {node : Bound.Node} (hnode : node ∈ (bind program registry).1.nodes) {slot : Ty}
    {value : Bound.Expr} (hslot : (slot, value) ∈ node.slots) : slot.bare = true := by
  obtain ⟨position, hbound⟩ := List.mem_iff_getElem?.mp hnode
  obtain ⟨declared, -, hboundAs⟩ := outcome.exists_declaration hbound
  obtain ⟨item, hsite⟩ := hboundAs.exists_site hslot
  exact hboundAs.bare_slot hsite

theorem Outcome.bare_valueType {state : State} (outcome : Outcome program registry state)
    {node : Bound.Node} (hnode : node ∈ (bind program registry).1.nodes) {type : ConfigType}
    {valueType : Ty} {default : Option Bound.Expr} {secret : Bool}
    (hbody : node.body = .config type valueType default secret) : valueType.bare = true := by
  obtain ⟨position, hbound⟩ := List.mem_iff_getElem?.mp hnode
  obtain ⟨declared, -, hboundAs⟩ := outcome.exists_declaration hbound
  cases hboundAs with
  | config _ _ =>
    cases hbody
    exact bare_configTy type
  | _ => cases hbody

end

/-- Eventual is always outermost: in the type of every part of a bound program. The slots of parts
and declarations expect no eventual type, and no setting has one. -/
theorem eventual_outermost (program : Program) (registry : Schema.Registry) :
    (∀ part, (bind program registry).1.Within part → part.ty.EventualOutermost ∧
      ∀ slot value, (slot, value) ∈ part.slots → slot.noEventual = true) ∧
    ∀ node ∈ (bind program registry).1.nodes,
      (∀ slot value, (slot, value) ∈ node.slots → slot.noEventual = true) ∧
      ∀ type valueType default secret, node.body = .config type valueType default secret →
        valueType.noEventual = true := by
  obtain ⟨state, outcome⟩ := exists_outcome program registry
  constructor
  · intro part hwithin
    refine ⟨Ty.eventualOutermost_of_withoutEventual (noEventual_of_within hwithin), ?_⟩
    intro slot value hslot
    obtain ⟨subject, site, hsite, rfl⟩ := exists_evaluates hwithin
    exact Ty.noEventual_of_bare slot (hsite.bare_of_slot hslot)
  · intro node hnode
    refine ⟨fun slot value hslot => ?_, fun type valueType default secret hbody => ?_⟩
    · exact Ty.noEventual_of_bare slot (outcome.bare_of_slot hnode hslot)
    · exact Ty.noEventual_of_bare valueType (outcome.bare_valueType hnode hbody)

def siteTags : Program :=
  ⟨[.resource "site" "aws:s3:Site" [("index", .string "index.html")] {},
    .variable "tags" (.access ⟨"site", [.field "index", .field "tags"]⟩ none),
    .output "all" (.array [.access ⟨"tags", []⟩ none] none)]⟩

theorem eventual_outermost_siteTags :
    (bind siteTags siteRegistry).1.Within
      (.access ⟨"tags", .variable, []⟩ (.eventual (.optional (.list .string)))) ∧
    (bind siteTags siteRegistry).1.Within
      (.array [.access ⟨"tags", .variable, []⟩ (.eventual (.optional (.list .string)))]
        (.list (.optional (.list .string)))) ∧
    (Ty.list (.optional (.list .string))).EventualOutermost := by
  have houtput : (bind siteTags siteRegistry).1.nodes[2]? = some ⟨"all", .output
      (.array [.access ⟨"tags", .variable, []⟩ (.eventual (.optional (.list .string)))]
        (.list (.optional (.list .string))))⟩ := rfl
  have hwhole : (bind siteTags siteRegistry).1.Within
      (.array [.access ⟨"tags", .variable, []⟩ (.eventual (.optional (.list .string)))]
        (.list (.optional (.list .string)))) :=
    ⟨_, List.mem_flatMap.mpr ⟨_, List.mem_of_getElem? houtput, List.mem_singleton.mpr rfl⟩,
      Bound.Expr.self_mem_subexprs _⟩
  exact ⟨hwhole.child List.mem_cons_self, hwhole,
    ((eventual_outermost siteTags siteRegistry).1 _ hwhole).1⟩

end Binding

end Provision
