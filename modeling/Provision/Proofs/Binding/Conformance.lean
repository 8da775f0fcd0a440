import Provision.Proofs.Binding.Program

/-!
# Bound programs follow their schemas

Structs, provider functions and resources have members, which their schemas declare. Whatever a
program writes, the members that are bound follow the schema: no key is there twice and each stands
in the slot of a declared property. A member that is left out is reported. In an accepted program no
required property is missing either, with one exception: a bare text that is put into the only
scalar property of a struct leaves the other properties out, required or not.
-/

namespace Provision

/-- Members that are bound against the properties of a schema. `problem` is what messages say of a
key that no property has. -/
structure Membership where
  properties : List Schema.Property
  problem : String → String
  members : List Bound.Member

namespace Bound

def unknownInput (what token key : String) : String := s!"`{key}` is not {what} of `{token}`"

def Expr.membership? (registry : Schema.Registry) : Expr → Option Membership
  | .object members (.object token) =>
    (registry.struct? token).map fun schema =>
      ⟨schema.properties, fun key => s!"`{key}` is not a property of `{token}`", members⟩
  | .invoke token members _ _ _ =>
    (registry.function? token).map fun schema =>
      ⟨schema.inputs, unknownInput "an argument" token, members⟩
  | _ => none

def Node.membership? (registry : Schema.Registry) (node : Node) : Option Membership :=
  match node.body with
  | .resource token members _ =>
    (registry.resource? token).map fun schema =>
      ⟨schema.inputs, unknownInput "an input property" token, members⟩
  | _ => none

end Bound

def Expr.entries? : Expr → Option (Members × Option Span)
  | .object entries span => some (entries, span)
  | .invoke _ args _ span => some (args, span)
  | _ => none

namespace Membership

open Binding

structure Conforms (membership : Membership) : Prop where
  nodup : (membership.members.map Bound.Slot.key).Nodup
  declared : ∀ member ∈ membership.members, ∃ property ∈ membership.properties,
    property.name = member.key ∧ property.toTy = member.expected

def HasRequired (membership : Membership) : Prop :=
  ∀ property ∈ membership.properties, property.required = true →
    property.name ∈ membership.members.map Bound.Slot.key

instance (membership : Membership) : Decidable membership.HasRequired :=
  inferInstanceAs (Decidable (∀ property ∈ membership.properties, property.required = true →
    property.name ∈ membership.members.map Bound.Slot.key))

def unknownMember (membership : Membership) (span : Option Span) (key : String) (value : Expr) :
    Diagnostic :=
  refusedMember span (membership.problem key) value

/-- Every declared member is evaluated to a bound one with its key, unless it is reported: as
`again` where the key was there before, or because no property has the key. -/
def Accounts (membership : Membership) (evaluated : Site → Prop) (reported : Diagnostic → Prop)
    (again : String → Expr → Diagnostic) (span : Option Span) (entries : Members) :
    Prop :=
  ∀ before key value after, entries = before ++ (key, value) :: after →
    (key ∉ before.map Prod.fst ∧ ∃ member ∈ membership.members, member.key = key ∧
      evaluated ⟨member.expected, value, member.value⟩) ∨
    ∃ diagnostic ∈ [again key value, membership.unknownMember span key value],
      diagnostic.isError = true ∧ reported diagnostic

def slot (membership : Membership) : String → Except String Ty :=
  slotOf membership.properties membership.problem

/-- The members are those of the declared entries that have a slot, and a required property without
an entry is reported. -/
structure Takes (membership : Membership) (again : String → Expr → Diagnostic)
    (span : Option Span) (reported : Diagnostic → Prop) (entries : Members) :
    Prop where
  keeps : Keeps membership.slot again span reported [] entries membership.members
  complete : ∀ property ∈ membership.properties, property.required = true →
    property.name ∉ entries.map Prod.fst → Failing reported

section

variable {membership : Membership} {again : String → Expr → Diagnostic} {span : Option Span}
  {reported : Diagnostic → Prop} {entries : Members}

private theorem slot_ok {key : String} {expected : Ty} (h : membership.slot key = .ok expected) :
    ∃ property ∈ membership.properties, property.name = key ∧ property.toTy = expected := by
  unfold slot slotOf at h
  split at h
  · next property hfind =>
    cases h
    exact ⟨property, List.mem_of_find?_eq_some hfind, by simpa using List.find?_some hfind, rfl⟩
  · cases h

private theorem slot_error {key message : String} (h : membership.slot key = .error message) :
    message = membership.problem key := by
  unfold slot slotOf at h
  split at h
  · cases h
  · cases h
    rfl

namespace Takes

variable (h : membership.Takes again span reported entries)

include h

theorem conforms : membership.Conforms :=
  ⟨h.keeps.nodup, fun _ hmember => slot_ok (h.keeps.slot_eq hmember)⟩

theorem accounts {evaluated : Site → Prop} (hagain : ∀ key value, (again key value).isError = true)
    (hevaluated : ∀ site ∈ memberSites entries membership.members, evaluated site) :
    membership.Accounts evaluated reported again span entries := by
  intro before key value after hentries
  rcases h.keeps.kept_or_reported hentries with
    ⟨-, hbefore, hkey⟩ | hreport | ⟨message, hslot, hreport⟩
  · obtain ⟨member, hmember, rfl⟩ := List.mem_map.mp hkey
    refine .inl ⟨hbefore, member, hmember, rfl, hevaluated _ (mem_memberSites.mpr ?_)⟩
    -- The first entry of its key, so the lookup finds this one.
    refine ⟨member, hmember, value, ?_, rfl⟩
    refine List.lookup_eq_some_iff.mpr ⟨before, after, hentries, fun entry hentry => ?_⟩
    exact bne_iff_ne.mpr fun heq => hbefore (List.mem_map.mpr ⟨entry, hentry, heq.symm⟩)
  · exact .inr ⟨_, List.mem_cons_self, hagain key value, hreport⟩
  · rw [slot_error hslot] at hreport
    exact .inr ⟨_, List.mem_cons_of_mem _ List.mem_cons_self, rfl, hreport⟩

theorem hasRequired (hagain : ∀ key value, (again key value).isError = true)
    (hclean : ¬ Failing reported) : membership.HasRequired := by
  intro property hproperty hrequired
  have hdeclared : property.name ∈ entries.map Prod.fst := by
    by_contra hmissing
    exact hclean (h.complete property hproperty hrequired hmissing)
  obtain ⟨⟨key, value⟩, hentry, hkey⟩ := List.mem_map.mp hdeclared
  obtain ⟨before, after, hentries⟩ := List.append_of_mem hentry
  rcases h.keeps.kept_or_reported hentries with ⟨-, -, hbound⟩ | hreport | ⟨message, -, hreport⟩
  · exact hkey ▸ hbound
  · exact absurd ⟨_, hagain key value, hreport⟩ hclean
  · exact absurd ⟨_, rfl, hreport⟩ hclean

end Takes

end

end Membership

variable {registry : Schema.Registry}

namespace Binding

def Wraps (registry : Schema.Registry) (bound : Bound.Expr) : Prop :=
  ∃ token schema field value, registry.struct? token = some schema ∧
    schema.soleScalar = some field ∧ isText value = true ∧
    bound = .object [⟨field.name, field.toTy, value⟩] (.object token)

variable {membership : Membership}

theorem Wraps.conforms {bound : Bound.Expr} (h : Wraps registry bound)
    (hmembership : bound.membership? registry = some membership) : membership.Conforms := by
  obtain ⟨token, schema, field, value, hschema, hfield, -, rfl⟩ := h
  simp only [Bound.Expr.membership?, hschema, Option.map_some, Option.some.injEq] at hmembership
  subst hmembership
  refine ⟨List.nodup_singleton _, fun member hmember => ?_⟩
  obtain rfl := List.mem_singleton.mp hmember
  exact ⟨field, mem_of_soleScalar hfield, rfl, rfl⟩

theorem Shape.takes {symbols : Symbols} {known : Nat → Ty → Prop} {reported : Diagnostic → Prop}
    {expected : Ty} {declared : Expr} {bound : Bound.Expr}
    (h : Shape registry symbols known reported expected declared bound)
    (hmembership : bound.membership? registry = some membership) :
    (∃ entries span, declared.entries? = some (entries, span) ∧
      membership.Takes repeatedEntry span reported entries ∧
      sites expected declared bound = memberSites entries membership.members) ∨
    declared.isText = true ∧ Wraps registry bound := by
  cases h with
  | literal hbound =>
    obtain ⟨value, ty, rfl, -⟩ := exists_literal hbound
    simp [Bound.Expr.membership?] at hmembership
  | struct htarget hschema hkeeps hcomplete =>
    simp only [Bound.Expr.membership?, hschema, Option.map_some, Option.some.injEq] at hmembership
    subst hmembership
    refine .inl ⟨_, _, rfl, ⟨hkeeps, fun property hproperty hrequired hkey => ?_⟩, rfl⟩
    exact .of_error (hcomplete property hproperty hrequired hkey)
  | unchecked htarget hschema => simp [Bound.Expr.membership?, hschema] at hmembership
  | map =>
    -- Objects in a slot without a struct have a map type, never that of a struct.
    have hty : ∀ values, ∃ inner, mapTy expected values = .map inner := by
      intro values
      unfold mapTy
      split <;> exact ⟨_, rfl⟩
    obtain ⟨inner, hty⟩ := hty _
    rw [hty] at hmembership
    simp [Bound.Expr.membership?] at hmembership
  | invoke hfunction hkeeps hcomplete hresult =>
    obtain ⟨schema, hschema, rfl⟩ := Option.map_eq_some_iff.mp hmembership
    simp only [argumentSlot, hschema, Option.map_some, Option.getD_some] at hkeeps hcomplete
    refine .inl ⟨_, _, rfl, ⟨hkeeps, fun property hproperty hrequired hkey => ?_⟩, rfl⟩
    exact .of_error (hcomplete property hproperty hrequired hkey)
  | wrapped _ hschema hfield hdeclared htext =>
    exact .inr ⟨hdeclared, _, _, _, _, hschema, hfield, htext, rfl⟩
  | _ => simp [Bound.Expr.membership?, Bound.Expr.failed] at hmembership

theorem BoundAs.takes {program : Program} {symbols : Symbols} {state : State} {position : Nat}
    {node : Node} {bound : Bound.Node}
    (h : BoundAs program registry symbols state position node bound)
    (hmembership : bound.membership? registry = some membership) :
    ∃ name token properties options, node = .resource name token properties options ∧
      membership.Takes repeatedProperty none (state.Reported name) properties ∧
      memberSites properties membership.members ⊆ nodeSites node bound := by
  cases h with
  | resource hshape _ =>
    obtain ⟨schema, hschema, rfl⟩ := Option.map_eq_some_iff.mp hmembership
    have hkeeps := hshape.keeps
    have hcomplete := hshape.complete
    simp only [propertySlot, hschema, Option.map_some, Option.getD_some] at hkeeps hcomplete
    refine ⟨_, _, _, _, rfl, ⟨hkeeps, fun property hproperty hrequired hkey => ?_⟩,
      List.subset_append_left _ _⟩
    exact .of_error (hcomplete property hproperty hrequired hkey)
  | _ => simp [Bound.Node.membership?] at hmembership

def Reports (program : Program) (registry : Schema.Registry) (subject : String)
    (diagnostic : Diagnostic) : Prop :=
  diagnostic.withSubject subject ∈ (bind program registry).2

theorem Outcome.reported_eq {program : Program} {state : State}
    (outcome : Outcome program registry state) : state.Reported = Reports program registry := by
  funext subject diagnostic
  rw [State.Reported, Reports, outcome.diagnostics]

/-- All members of a bound program follow their schemas, and every declared member is bound or
reported. Every part of the program was evaluated, so none is left aside. -/
theorem bind_conforms (program : Program) (registry : Schema.Registry) :
    (∀ part, (bind program registry).1.Within part → ∀ membership,
      part.membership? registry = some membership → membership.Conforms) ∧
    (∀ node ∈ (bind program registry).1.nodes, ∀ membership,
      node.membership? registry = some membership → membership.Conforms) ∧
    (∀ subject site membership entries span,
      Evaluates program (bind program registry).1 subject site →
      site.bound.membership? registry = some membership →
      site.declared.entries? = some (entries, span) →
        membership.Accounts (Evaluates program (bind program registry).1 subject)
          (Reports program registry subject) repeatedEntry span entries) ∧
    (∀ (position : Nat) name token properties options bound membership,
      program.nodes[position]? = some (.resource name token properties options) →
      (bind program registry).1.nodes[position]? = some bound →
      bound.membership? registry = some membership →
        membership.Accounts (Evaluates program (bind program registry).1 name)
          (Reports program registry name) repeatedProperty none properties) ∧
    ∀ part, (bind program registry).1.Within part → ∃ subject site,
      Evaluates program (bind program registry).1 subject site ∧ site.bound = part := by
  obtain ⟨state, outcome⟩ := exists_outcome program registry
  refine ⟨?_, ?_, ?_, ?_, fun part => exists_evaluates⟩
  · intro part hpart membership hmembership
    obtain ⟨subject, site, hsite, rfl⟩ := exists_evaluates hpart
    obtain ⟨-, helaborates⟩ := hsite.elaborates outcome
    rcases helaborates.shape.takes hmembership with ⟨entries, span, -, htakes, -⟩ | ⟨-, hwraps⟩
    · exact htakes.conforms
    · exact hwraps.conforms hmembership
  · intro node hnode membership hmembership
    obtain ⟨position, hbound⟩ := List.mem_iff_getElem?.mp hnode
    obtain ⟨declared, -, hboundAs⟩ := outcome.exists_declaration hbound
    obtain ⟨name, token, properties, options, -, htakes, -⟩ := hboundAs.takes hmembership
    exact htakes.conforms
  · intro subject site membership entries span hsite hmembership hentries
    obtain ⟨-, helaborates⟩ := hsite.elaborates outcome
    rcases helaborates.shape.takes hmembership with
      ⟨entries', span', heq, htakes, hsites⟩ | ⟨htext, -⟩
    · obtain ⟨rfl, rfl⟩ := Prod.mk.inj (Option.some.inj (hentries.symm.trans heq))
      rw [outcome.reported_eq] at htakes
      exact htakes.accounts (fun _ _ => rfl) fun inner hinner => hsite.part (hsites ▸ hinner)
    · cases hdeclared : site.declared <;> simp_all [Expr.entries?, Expr.isText]
  · intro position name token properties options bound membership hnode hbound hmembership
    obtain ⟨name', token', properties', options', heq, htakes, hsites⟩ :=
      (outcome.boundAs hnode hbound).takes hmembership
    cases heq
    rw [outcome.reported_eq] at htakes
    exact htakes.accounts (fun _ _ => rfl) fun site hsite => .declared hnode hbound (hsites hsite)

def looseSite : Program :=
  ⟨[.resource "site" "aws:s3:Site"
    [("index", .object [("path", .string "index.html"), ("path", .string "home.html"),
      ("color", .string "red")] none)] {}]⟩

example : (bind looseSite siteRegistry).2.map Diagnostic.message =
    ["key `path` appears more than once", "`color` is not a property of `aws:s3:Page`"] := by
  decide +kernel

/-- In an accepted program all members have their required properties, unless they are those of a
bare text that was put into a struct. -/
theorem required_or_wrapped (program : Program) (registry : Schema.Registry)
    (hclean : hasErrors (bind program registry).2 = false) :
    (∀ part, (bind program registry).1.Within part → ∃ subject site,
      Evaluates program (bind program registry).1 subject site ∧ site.bound = part) ∧
    (∀ subject site membership, Evaluates program (bind program registry).1 subject site →
      site.bound.membership? registry = some membership →
        membership.HasRequired ∨ site.declared.isText = true ∧ Wraps registry site.bound) ∧
    ∀ node ∈ (bind program registry).1.nodes, ∀ membership,
      node.membership? registry = some membership → membership.HasRequired := by
  obtain ⟨state, outcome⟩ := exists_outcome program registry
  have hfailing : ∀ subject, ¬ Failing (state.Reported subject) := by
    intro subject hfailing
    simp [outcome.diagnostics, hfailing.hasErrors] at hclean
  refine ⟨fun part => exists_evaluates, ?_, ?_⟩
  · intro subject site membership hsite hmembership
    obtain ⟨-, helaborates⟩ := hsite.elaborates outcome
    rcases helaborates.shape.takes hmembership with ⟨entries, span, -, htakes, -⟩ | hwraps
    · exact .inl (htakes.hasRequired (fun _ _ => rfl) (hfailing subject))
    · exact .inr hwraps
  · intro node hnode membership hmembership
    obtain ⟨position, hbound⟩ := List.mem_iff_getElem?.mp hnode
    obtain ⟨declared, -, hboundAs⟩ := outcome.exists_declaration hbound
    obtain ⟨name, token, properties, options, -, htakes, -⟩ := hboundAs.takes hmembership
    exact htakes.hasRequired (fun _ _ => rfl) (hfailing name)

def barePage : Program := ⟨[.resource "site" "aws:s3:Site" [("index", .string "index.html")] {}]⟩

theorem required_or_wrapped_barePage :
    hasErrors (bind barePage siteRegistry).2 = false ∧
      ∃ node ∈ (bind barePage siteRegistry).1.nodes, ∃ membership,
        node.membership? siteRegistry = some membership ∧ membership.HasRequired := by
  have hclean : hasErrors (bind barePage siteRegistry).2 = false := by decide +kernel
  have hnode : (bind barePage siteRegistry).1.nodes[0]? = some ⟨"site", .resource "aws:s3:Site"
      [⟨"index", .object "aws:s3:Page",
        .object [⟨"path", .string, .string "index.html"⟩] (.object "aws:s3:Page")⟩] {}⟩ := rfl
  have hmem := List.mem_of_getElem? hnode
  obtain ⟨-, -, hnodes⟩ := required_or_wrapped barePage siteRegistry hclean
  exact ⟨hclean, _, hmem, _, rfl, hnodes _ hmem _ rfl⟩

def taggedRegistry : Schema.Registry :=
  { siteRegistry with
    packages := [⟨"aws", [⟨"aws:s3:Site", [⟨"index", .ref "aws:s3:Page", true⟩], []⟩],
      [⟨"aws:s3:Page", [⟨"path", .string, true⟩, ⟨"tags", .array .string, true⟩]⟩], []⟩] }

/-- The text is put into the path of the page, and nothing says that the tags are missing. -/
theorem not_hasRequired_barePage :
    hasErrors (bind barePage taggedRegistry).2 = false ∧
      ∃ part membership, (bind barePage taggedRegistry).1.Within part ∧
        part.membership? taggedRegistry = some membership ∧ ¬ membership.HasRequired := by
  let page : Bound.Expr :=
    .object [⟨"path", .string, .string "index.html"⟩] (.object "aws:s3:Page")
  have hexpressions : (bind barePage taggedRegistry).1.expressions = [page] := rfl
  have hwithin : (bind barePage taggedRegistry).1.Within page :=
    ⟨page, by simp [hexpressions], Bound.Expr.self_mem_subexprs page⟩
  exact ⟨by decide +kernel, page, _, hwithin, rfl, by decide⟩

end Binding

end Provision
