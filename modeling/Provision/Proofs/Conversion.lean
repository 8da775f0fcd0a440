import Provision.Proofs.Binding.Naming
import Provision.Proofs.Binding.Placement
import Provision.Proofs.Lowering.Applies

/-!
# Rendering accepted programs

Not all that binding accepts can be said in every target. The slot of a struct also takes null,
where it may be left out, and values of union types, and a target can have one name for two
properties. Conditionals apart, which one target has none of, this is all that rendering refuses of
an accepted program.
-/

namespace Provision

open Render Binding Lowering

namespace Render

def Clash (target : Target) (keys : List String) : Prop :=
  ∃ left ∈ keys, ∃ right ∈ keys, left ≠ right ∧
    (dialectOf target).propertyName left = (dialectOf target).propertyName right

theorem not_distinct_of_clash {target : Target} {keys : List String} (h : Clash target keys) :
    ¬ Distinct target keys := by
  obtain ⟨left, hleft, right, hright, hne, hsame⟩ := h
  exact fun hdistinct => hne (List.inj_on_of_nodup_map hdistinct hleft hright hsame)

theorem clash_of_not_distinct {target : Target} {keys : List String} (hkeys : keys.Nodup)
    (h : ¬ Distinct target keys) : Clash target keys := by
  by_contra hnone
  refine h (hkeys.map_on fun left hleft right hright hsame => ?_)
  by_contra hne
  exact hnone ⟨left, hleft, right, hright, hne, hsame⟩

/-- A struct or the arguments of a function of which two have one name in the target. -/
inductive Ambiguous (target : Target) : Bound.Expr → Prop
  | struct {entries : List Bound.Member} {ty : Ty} {token : String} :
      ty.resolved = .object token → Clash target (entries.map (·.key)) →
        Ambiguous target (.object entries ty)
  | function {token : String} {args : List Bound.Member} {field : Option String}
      {reads : Bool} {ty : Ty} : Clash target (args.map (·.key)) →
        Ambiguous target (.invoke token args field reads ty)

/-- A value that is null or of a union type where the target needs a struct. -/
structure Undecided (target : Target) (expected : Ty) (value : Bound.Expr) : Prop where
  struct : ∃ token, expected.resolved = .object token
  unbuilt : ∀ entries ty, value ≠ .object entries ty
  open_ty : value.ty.resolved = .null ∨ ∃ members, value.ty.resolved = .union members
  no_inline : (dialectOf target).inlineStructs = false

theorem Undecided.misfit {target : Target} {expected : Ty} {value : Bound.Expr}
    (h : Undecided target expected value) (herror : ∀ ty, value ≠ .error ty) :
    Misfit target expected value := by
  obtain ⟨⟨token, hexpected⟩, hbuilt, hopen, hinline⟩ := h
  have hfits : fitsStruct value.ty token = false := by
    rcases hopen with hnull | ⟨members, hunion⟩
    · simp [fitsStruct, hnull]
    · simp [fitsStruct, hunion]
  refine ⟨token, hexpected, ?_⟩
  cases value with
  | object entries ty => exact absurd rfl (hbuilt entries ty)
  | error ty => exact absurd rfl (herror ty)
  | _ => simp [givesStruct, hfits, hinline]

end Render

namespace Binding

/-! ## Expressions -/

section

variable {registry : Schema.Registry} {symbols : Symbols} {known : Nat → Ty → Prop}
  {reported : Diagnostic → Prop} {slot : Ty} {declared : Expr}

theorem Shape.invoke_inv {token : String} {args : List Bound.Member}
    {field : Option String} {reads : Bool} {ty : Ty}
    (h : Shape registry symbols known reported slot declared (.invoke token args field reads ty)) :
    (args.map (·.key)).Nodup ∧ (registry.function? token = none → Failing reported) := by
  generalize hbound : Bound.Expr.invoke token args field reads ty = bound at h
  cases h with
  | literal hliteral => exact absurd (hbound.trans hliteral) (ne_bindLiteral (by simp))
  | invoke hfunction hkeeps =>
    cases hbound
    exact ⟨hkeeps.nodup, hfunction⟩
  | _ => cases hbound

theorem Shape.error_inv {ty : Ty}
    (h : Shape registry symbols known reported slot declared (.error ty)) : Failing reported := by
  generalize hbound : Bound.Expr.error ty = bound at h
  cases h with
  | literal hliteral => exact absurd (hbound.trans hliteral) (ne_bindLiteral (by simp))
  | failed hfailing => exact hfailing
  | _ => cases hbound

variable {target : Target} {expected : Ty}

theorem Shape.defect_object_iff {entries copies : List Bound.Member} {own ty : Ty}
    (h : Shape registry symbols known reported slot declared (.object entries own))
    (hassignable : own.assignable slot = true)
    (hsuits : Suits expected ⟨slot, declared, .object entries own⟩)
    (hty : ty.resolved = own.resolved) (hnamed : slot.WellNamed)
    (hcopies : copies.map (·.key) = entries.map (·.key)) :
    Defect target expected (.object copies ty) ↔ Ambiguous target (.object copies ty) := by
  have hkeys : (copies.map (·.key)).Nodup := hcopies ▸ h.object_inv.1
  rcases h.construction_cases hassignable hsuits hty with
    ⟨token, hslot, hstruct, hbuilt⟩ | ⟨mapped, values, hmap, hbuilt, -⟩
  · constructor
    · intro hdefect
      cases hdefect with
      | shapeless herror => simp [hbuilt] at herror
      | structToken hother hnone =>
        obtain rfl : token = _ := by simpa [hbuilt] using hother
        simp [hnamed token (mem_tokens_of_structTarget hslot)] at hnone
      | structNames _ hnames => exact .struct hstruct (clash_of_not_distinct hkeys hnames)
    · intro hambiguous
      cases hambiguous with
      | struct _ hclash => exact .structNames hbuilt (not_distinct_of_clash hclash)
  · -- A map has no fixed names and no token.
    refine iff_of_false (fun hdefect => ?_) fun hambiguous => ?_
    · cases hdefect with
      | shapeless hother | structToken hother _ | structNames hother _ => simp [hbuilt] at hother
    · cases hambiguous with
      | struct hstruct _ => simp [hmap] at hstruct

theorem Shape.defect_invoke_iff {token : String} {args copies : List Bound.Member}
    {field : Option String} {reads : Bool} {own ty : Ty}
    (h : Shape registry symbols known reported slot declared (.invoke token args field reads own))
    (hfine : ¬ Failing reported) (named : registry.WellNamed)
    (hcopies : copies.map (·.key) = args.map (·.key)) :
    Defect target expected (.invoke token copies field reads ty) ↔
      Ambiguous target (.invoke token copies field reads ty) := by
  obtain ⟨hnodup, hfunction⟩ := h.invoke_inv
  have hkeys : (copies.map (·.key)).Nodup := hcopies ▸ hnodup
  constructor
  · intro hdefect
    cases hdefect with
    | functionToken hnone =>
      cases hschema : registry.function? token with
      | none => exact absurd (hfunction hschema) hfine
      | some schema =>
        have hlookup := Schema.Registry.lookup_of_function? hschema
        simp [(named _ _ hlookup).1] at hnone
    | functionNames hnames => exact .function (clash_of_not_distinct hkeys hnames)
  · intro hambiguous
    cases hambiguous with
    | function hclash => exact .functionNames (not_distinct_of_clash hclash)

end

section

variable {site : Site} {expected : Ty} {copy : Bound.Expr} {target : Target}

theorem Suits.undecided (hassignable : site.bound.ty.assignable site.slot = true)
    (hsuits : Suits expected site) (hcopy : copy.ty.resolved = site.bound.ty.resolved)
    (hmisfit : Misfit target expected copy) : Undecided target expected copy := by
  obtain ⟨token, hexpected, hgives⟩ := hmisfit
  have hbuilt : ∀ entries ty, copy ≠ .object entries ty := by
    rintro entries ty rfl
    simp [givesStruct] at hgives
  obtain ⟨hfits, hinline⟩ : fitsStruct copy.ty token = false ∧
      (dialectOf target).inlineStructs = false := by
    cases copy <;> simp_all [givesStruct]
  refine ⟨⟨token, hexpected⟩, hbuilt, ?_, hinline⟩
  rw [fitsStruct, hcopy] at hfits
  rw [hcopy]
  cases hsuits with
  | slot heq =>
    rcases Ty.resolved_of_assignable (heq ▸ hexpected) hassignable with h | h | h | h | h
    · simp [h] at hfits
    · simp [h] at hfits
    · simp [h] at hfits
    · exact .inl h
    · exact .inr h
  | free heq => simp [heq, Ty.resolved] at hexpected
  | under _ hunder =>
    rcases hunder.object_inv hexpected with h | h | h
    · simp [h] at hfits
    · exact .inl h
    · simp [h] at hfits

end

section

variable {program : Program} {registry : Schema.Registry} {target : Target} {subject : String}
  {site : Site} {expected : Ty} {copy : Bound.Expr}
  (hclean : hasErrors (bind program registry).2 = false)
  (h : Evaluates program (bind program registry).1 subject site) (hcopy : Copies site.bound copy)
  (hsuits : Suits expected site)

include hclean h hcopy hsuits

theorem Evaluates.fault_iff (htarget : target ≠ .go) (named : registry.WellNamed) :
    Fault target expected copy ↔ Ambiguous target copy ∨ Undecided target expected copy := by
  obtain ⟨state, outcome⟩ := exists_outcome program registry
  obtain ⟨-, helaborates⟩ := h.elaborates outcome
  have hassignable := h.assignable hclean
  have hnamed := h.wellNamed named
  have hfine : ¬ Failing (state.Reported subject) := fun hfailing => by
    simp [outcome.diagnostics, hfailing.hasErrors] at hclean
  have hshape := helaborates.shape
  have hmisfit : Misfit target expected copy ↔ Undecided target expected copy := by
    refine ⟨hsuits.undecided hassignable hcopy.resolved_ty, fun hundecided => ?_⟩
    refine hundecided.misfit fun ty herror => hfine ?_
    obtain ⟨own, hbound⟩ := (herror ▸ hcopy).error_inv
    exact (hbound ▸ hshape).error_inv
  have hdefect : Defect target expected copy ↔ Ambiguous target copy := by
    obtain ⟨slot, declared, bound⟩ := site
    cases hcopy with
    | parameter | apply => exact iff_of_false (by rintro ⟨⟩) (by rintro ⟨⟩)
    | node f hty hchildren =>
      dsimp only at hshape hassignable hnamed hty ⊢
      have hkeys (slots : List Bound.Member) :
          (slots.map (Bound.Slot.map f)).map (·.key) = slots.map (·.key) := by
        simp [Function.comp_def, Bound.Slot.map]
      cases bound with
      | object entries own =>
        exact hshape.defect_object_iff hassignable hsuits hty hnamed (hkeys entries)
      | invoke token args field reads own => exact hshape.defect_invoke_iff hfine named (hkeys args)
      | conditional =>
        refine iff_of_false (fun hdefect => ?_) (by rintro ⟨⟩)
        cases hdefect with
        | choice hgo => exact htarget hgo
      | _ => exact iff_of_false (by rintro ⟨⟩) (by rintro ⟨⟩)
  rw [Fault, hmisfit, hdefect, or_comm]

theorem Evaluates.exists_of_stands {slot : Ty} {value : Bound.Expr}
    (hstands : Stands expected copy slot value) :
    ∃ inner, Evaluates program (bind program registry).1 subject inner ∧
      Copies inner.bound value ∧ Suits slot inner := by
  obtain ⟨state, outcome⟩ := exists_outcome program registry
  -- On the copy: its children are copies of the parts of the site, the arguments of an apply were
  -- evaluated somewhere below, and its body is again a copy of the whole.
  generalize hbound : site.bound = bound at hcopy
  induction hcopy generalizing site expected with
  | @node bound f ty hty hchildren ih =>
    subst hbound
    cases hstands with
    | self => exact ⟨site, h, .node f hty hchildren, hsuits⟩
    | under hplace hstands =>
      rw [← Bound.Expr.mapChildren_withTy, places_mapChildren] at hplace
      obtain ⟨⟨inner, part⟩, hpart, heq⟩ := List.mem_map.mp hplace
      obtain ⟨rfl, rfl⟩ := Prod.mk.inj heq
      obtain ⟨-, helaborates⟩ := h.elaborates outcome
      obtain ⟨partSite, hsite, rfl, hpartSuits⟩ := helaborates.shape.exists_site_of_place
        (h.assignable hclean) hsuits hty hpart
      have hchild := mem_children_of_mem_places hpart
      rw [Bound.Expr.children_withTy] at hchild
      exact ih partSite.bound hchild (h.part hsite) hpartSuits hstands rfl
  | parameter hty =>
    subst hbound
    cases hstands with
    | self => exact ⟨site, h, .parameter hty, hsuits⟩
    | under hplace => simp [places] at hplace
  | apply hty hargs hcopies hbody ihargs ihbody =>
    subst hbound
    cases hstands with
    | self => exact ⟨site, h, .apply hty hargs hcopies hbody, hsuits⟩
    | under hplace hstands =>
      rcases List.mem_append.mp hplace with hplace | hplace
      · obtain ⟨arg, harg, heq⟩ := List.mem_map.mp hplace
        obtain ⟨rfl, rfl⟩ := Prod.mk.inj heq
        obtain ⟨inner, hinner, hvalue⟩ := h.exists_of_mem outcome (hargs arg harg)
        exact ihargs arg harg hinner (.free rfl) hstands hvalue
      · obtain ⟨rfl, rfl⟩ := Prod.mk.inj (List.mem_singleton.mp hplace)
        exact ihbody h (.free rfl) hstands rfl

end

end Binding

namespace Assembly

/-! ## Declarations -/

def AmbiguousNode (target : Target) (node : Bound.Node) : Prop :=
  (∃ token properties options, node.body = .resource token properties options ∧
    Clash target (properties.map (·.key))) ∨
  ∃ slot value, StandsIn node slot value ∧ Ambiguous target value

def UndecidedNode (target : Target) (node : Bound.Node) : Prop :=
  ∃ slot value, StandsIn node slot value ∧ Undecided target slot value

theorem closed_lower_bind (program : Program) (registry : Schema.Registry) :
    ∀ expr ∈ (lower (bind program registry).1).expressions, ∀ name,
      ¬ Bound.Expr.Free name expr := by
  rw [lower_eq_map, Bound.Program.expressions_map]
  intro lowered hlowered name
  obtain ⟨expr, hexpr, rfl⟩ := List.mem_map.mp hlowered
  exact not_free_lowerInput (source_bind program registry expr hexpr) name

private theorem nodePlaces_map (f : Bound.Expr → Bound.Expr) (node : Bound.Node) :
    nodePlaces (node.map f) = (nodePlaces node).map (Prod.map id f) := by
  obtain ⟨name, body⟩ := node
  cases body <;> simp [nodePlaces, Bound.Node.map, optionPlaces, Bound.Options.map,
    Option.toList_map, Function.comp_def, Bound.Slot.typed]

theorem exists_slot_of_mem_nodePlaces {node : Bound.Node} {expected : Ty} {value : Bound.Expr}
    (h : (expected, value) ∈ nodePlaces node) :
    ∃ slot, (slot, value) ∈ node.slots ∧ (expected = slot ∨ expected = .any) := by
  have hresource (values : List Bound.Expr) (h : (expected, value) ∈ values.map (Ty.any, ·)) :
      expected = .any ∧ (Ty.anyResource, value) ∈ values.map (Ty.anyResource, ·) := by
    obtain ⟨other, hother, heq⟩ := List.mem_map.mp h
    obtain ⟨rfl, rfl⟩ := Prod.mk.inj heq
    exact ⟨rfl, List.mem_map_of_mem hother⟩
  obtain ⟨name, body⟩ := node
  cases body with
  | resource token properties options =>
    rcases List.mem_append.mp h with h | h
    · exact ⟨expected, List.mem_append_left _ h, .inl rfl⟩
    · have hoptions : (expected, value) ∈ options.slots ∨
          expected = .any ∧ (Ty.anyResource, value) ∈ options.slots := by
        simp only [optionPlaces, Bound.Options.slots, List.mem_append] at h ⊢
        grind
      rcases hoptions with hslot | ⟨hany, hslot⟩
      · exact ⟨expected, List.mem_append_right _ hslot, .inl rfl⟩
      · exact ⟨.anyResource, List.mem_append_right _ hslot, .inr hany⟩
  | _ => exact ⟨expected, h, .inl rfl⟩

section

variable {program : Program} {registry : Schema.Registry} {target : Target} {position : Nat}
  {bound : Bound.Node} (named : registry.WellNamed)
  (hclean : hasErrors (bind program registry).2 = false)
  (hbound : (bind program registry).1.nodes[position]? = some bound)

include named hclean hbound

private theorem fault_iff_of_standsIn (htarget : target ≠ .go) {slot : Ty} {value : Bound.Expr}
    (h : StandsIn (bound.map lowerInput) slot value) :
    Fault target slot value ↔ Ambiguous target value ∨ Undecided target slot value := by
  obtain ⟨state, outcome⟩ := exists_outcome program registry
  obtain ⟨node, hnode, hboundAs⟩ := outcome.exists_declaration hbound
  obtain ⟨place, hplace, hstands⟩ := h
  rw [nodePlaces_map] at hplace
  obtain ⟨⟨expected, expr⟩, hexpr, rfl⟩ := List.mem_map.mp hplace
  obtain ⟨own, hown, hexpected⟩ := exists_slot_of_mem_nodePlaces hexpr
  obtain ⟨item, hsite⟩ := hboundAs.exists_site hown
  have hsource : expr.Source := by
    refine source_bind program registry expr (List.mem_flatMap.mpr ⟨bound, ?_, ?_⟩)
    · exact List.mem_of_getElem? hbound
    · exact bound.map_snd_slots ▸ List.mem_map_of_mem hown
  have hsuits : Suits expected ⟨own, item, expr⟩ :=
    hexpected.elim (fun heq => .slot heq) fun heq => .free heq
  have hevaluates := Evaluates.declared hnode hbound hsite
  obtain ⟨inner, hinner, hcopy, hinnerSuits⟩ :=
    hevaluates.exists_of_stands hclean (copies_lowerInput hsource) hsuits hstands
  exact hinner.fault_iff hclean hcopy hinnerSuits htarget named

private theorem ambiguousNode_of_defect (h : NodeDefect target (bound.map lowerInput).body) :
    AmbiguousNode target (bound.map lowerInput) := by
  obtain ⟨state, outcome⟩ := exists_outcome program registry
  obtain ⟨node, -, hboundAs⟩ := outcome.exists_declaration hbound
  cases hboundAs with
  | config | «variable» | output => cases h
  | @resource name token _ _ properties _ hshape _ =>
    cases h with
    | token hnone =>
      cases hschema : registry.resource? token with
      | none =>
        have hfailing := hshape.known hschema
        simp [outcome.diagnostics, hfailing.hasErrors] at hclean
      | some schema =>
        have hlookup := Schema.Registry.lookup_of_resource? hschema
        simp [(named _ _ hlookup).1] at hnone
    | names hclash =>
      refine .inl ⟨_, _, _, rfl, clash_of_not_distinct ?_ hclash⟩
      simpa [Function.comp_def] using hshape.keeps.nodup

private theorem refused_iff_unsayable (htarget : target ≠ .go) :
    (refusal? target (lower (bind program registry).1).nodes position).isSome = true ↔
      AmbiguousNode target (bound.map lowerInput) ∨
        UndecidedNode target (bound.map lowerInput) := by
  have hnode : (lower (bind program registry).1).nodes[position]? =
      some (bound.map lowerInput) := by
    simp [lower_eq_map, Bound.Program.map, hbound]
  rw [Option.isSome_iff_ne_none, ne_eq,
    refusal?_eq_none_iff (closed_lower_bind program registry) hnode]
  have hfault {slot value} (hstands : StandsIn (bound.map lowerInput) slot value) :
      Fault target slot value ↔ Ambiguous target value ∨ Undecided target slot value :=
    fault_iff_of_standsIn named hclean hbound htarget hstands
  constructor
  · intro hfaulty
    by_contra hnone
    refine hfaulty ⟨fun hdefect => ?_, fun slot value hstands hwrong => ?_⟩
    · exact hnone (.inl (ambiguousNode_of_defect named hclean hbound hdefect))
    · rcases (hfault hstands).mp hwrong with hambiguous | hundecided
      · exact hnone (.inl (.inr ⟨slot, value, hstands, hambiguous⟩))
      · exact hnone (.inr ⟨slot, value, hstands, hundecided⟩)
  · rintro ((⟨token, properties, options, hbody, hclash⟩ | ⟨slot, value, hstands, hambiguous⟩) |
      ⟨slot, value, hstands, hundecided⟩) hfine
    · exact hfine.1 (hbody ▸ .names (not_distinct_of_clash hclash))
    · exact hfine.2 slot value hstands ((hfault hstands).mpr (.inl hambiguous))
    · exact hfine.2 slot value hstands ((hfault hstands).mpr (.inr hundecided))

end

/-! ## Programs -/

private theorem exists_unsupported_iff (program : Bound.Program) (target : Target) :
    (∃ diagnostic ∈ (assemble program target).diagnostics,
      diagnostic.kind = .unsupportedExpression) ↔
    ∃ position ∈ (Graph.order program.nodes).order,
      (refusal? target program.nodes position).isSome = true := by
  constructor
  · rintro ⟨diagnostic, hdiagnostic, hkind⟩
    rw [assemble_diagnostics] at hdiagnostic
    rcases List.mem_append.mp hdiagnostic with hreport | hdiagnostic
    · rcases List.mem_append.mp hreport with hreport | hreport
      · obtain ⟨cycle, -, rfl⟩ := List.mem_map.mp hreport
        cases hkind
      · obtain ⟨entry, -, rfl⟩ := List.mem_map.mp hreport
        cases hkind
    · obtain ⟨position, hposition, hsome⟩ := List.mem_filterMap.mp hdiagnostic
      obtain ⟨refusal, hrefusal, -⟩ := Option.map_eq_some_iff.mp hsome
      exact ⟨position, hposition, by simp [hrefusal]⟩
  · rintro ⟨position, hposition, hsome⟩
    obtain ⟨refusal, hrefusal⟩ := Option.isSome_iff_exists.mp hsome
    exact ⟨_, refusal_mem_diagnostics hposition hrefusal, (onlyUnsupported_failureAt hrefusal).2⟩

/-- Where conditionals can be said, all that is refused of an accepted program is what names two
properties alike and what gives a struct that is null or of a union type. -/
theorem accepted_refused_iff (program : Program) (registry : Schema.Registry) (target : Target)
    (htarget : target ≠ .go) (named : registry.WellNamed)
    (hclean : hasErrors (bind program registry).2 = false) :
    (∃ diagnostic ∈ (assemble (lower (bind program registry).1) target).diagnostics,
      diagnostic.kind = .unsupportedExpression) ↔
    ∃ position ∈ (Graph.order (lower (bind program registry).1).nodes).order, ∃ node,
      (lower (bind program registry).1).nodes[position]? = some node ∧
        (AmbiguousNode target node ∨ UndecidedNode target node) := by
  rw [exists_unsupported_iff]
  refine exists_congr fun position => and_congr_right fun hposition => ?_
  have hlt : position < (bind program registry).1.nodes.length := by
    simpa [lower_eq_map, Bound.Program.map] using lt_length_of_mem_order hposition
  have hbound := List.getElem?_eq_getElem hlt
  rw [refused_iff_unsayable named hclean hbound htarget]
  simp [lower_eq_map, Bound.Program.map, hbound]

def errorPageRegistry : Schema.Registry :=
  { packages := [⟨"aws", [⟨"aws:s3:Site", [⟨"errorPage", .ref "aws:s3:Page", false⟩], []⟩],
      [⟨"aws:s3:Page", [⟨"path", .string, true⟩]⟩], []⟩]
    index := [("aws:s3:Site", ⟨.resource, 0, 0⟩), ("aws:s3:Page", ⟨.struct, 0, 0⟩)] }

def nullPage : Program :=
  ⟨[.resource "site" "aws:s3:Site" [("errorPage", .literal .null none)] {}]⟩

theorem refused_nullPage : hasErrors (bind nullPage errorPageRegistry).2 = false ∧
    ∀ target, target = .typeScript ∨ target = .csharp →
      ∃ diagnostic ∈ (assemble (lower (bind nullPage errorPageRegistry).1) target).diagnostics,
        diagnostic.kind = .unsupportedExpression := by
  refine ⟨by decide +kernel, ?_⟩
  rintro target (rfl | rfl)
  · decide +kernel
  · decide +kernel

theorem accepted_refused_iff_nullPage :
    Target.csharp ≠ .go ∧ errorPageRegistry.WellNamed ∧
      hasErrors (bind nullPage errorPageRegistry).2 = false ∧
      ∃ position ∈ (Graph.order (lower (bind nullPage errorPageRegistry).1).nodes).order, ∃ node,
        (lower (bind nullPage errorPageRegistry).1).nodes[position]? = some node ∧
          (AmbiguousNode .csharp node ∨ UndecidedNode .csharp node) := by
  have hnamed : errorPageRegistry.WellNamed := by decide +kernel
  obtain ⟨hclean, hrefused⟩ := refused_nullPage
  exact ⟨by decide, hnamed, hclean, (accepted_refused_iff nullPage errorPageRegistry .csharp
    (by decide) hnamed hclean).mp (hrefused .csharp (.inr rfl))⟩

theorem not_ambiguous_nullPage : errorPageRegistry.WellNamed ∧
    hasErrors (bind nullPage errorPageRegistry).2 = false ∧
    ∀ target, target = .typeScript ∨ target = .csharp →
      (∃ diagnostic ∈ (assemble (lower (bind nullPage errorPageRegistry).1) target).diagnostics,
        diagnostic.kind = .unsupportedExpression) ∧
      ∀ node ∈ (lower (bind nullPage errorPageRegistry).1).nodes, ¬ AmbiguousNode target node := by
  obtain ⟨hclean, hrefused⟩ := refused_nullPage
  refine ⟨by decide +kernel, hclean, fun target htarget => ⟨hrefused target htarget, ?_⟩⟩
  have hnodes : (lower (bind nullPage errorPageRegistry).1).nodes =
      [⟨"site", .resource "aws:s3:Site" [⟨"errorPage", .optional (.object "aws:s3:Page"),
        .literal .null .null⟩] {}⟩] := rfl
  rw [hnodes, List.forall_mem_singleton]
  rintro (⟨token, properties, options, hbody, left, hleft, right, hright, hne, -⟩ |
    ⟨slot, value, ⟨place, hplace, hstands⟩, hambiguous⟩)
  · cases hbody
    obtain rfl := List.mem_singleton.mp hleft
    exact hne (List.mem_singleton.mp hright).symm
  · obtain rfl := List.mem_singleton.mp hplace
    cases hstands with
    | self => cases hambiguous
    | under hunder => simp [places, Bound.Slot.typed] at hunder

end Assembly

end Provision
