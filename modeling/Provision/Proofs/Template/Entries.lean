import Provision.Proofs.Lookup
import Provision.Proofs.Template.Values

/-!
# Entries of templates

What becomes of the sections of a template, of their entries and of the fields that these know.
`EntryCarried` says that an entry gives one node under its name, with every field carried into it
or reported, or that an error under its name says why it gives none. Main statement: reading a
template keeps to it for all entries in order, with one exception. A `secret` that is no truth value
is passed over without a word.
-/

namespace Provision

variable {diagnostics : List Diagnostic} {name : String}

namespace ResourceOptions

def slots (options : ResourceOptions) : List (String × Option Expr) :=
  [("parent", options.parent), ("dependsOn", options.dependsOn), ("protect", options.protect),
    ("provider", options.provider), ("ignoreChanges", options.ignoreChanges),
    ("aliases", options.aliases), ("deleteBeforeReplace", options.deleteBeforeReplace),
    ("additionalSecretOutputs", options.additionalSecretOutputs),
    ("customTimeouts", options.customTimeouts), ("import", options.importId),
    ("version", options.version)]

def names : List String := (slots {}).map Prod.fst

theorem map_fst_slots (options : ResourceOptions) : options.slots.map Prod.fst = names := rfl

variable {options : ResourceOptions} {value : Expr}

theorem mem_entries : (name, value) ∈ options.entries ↔ (name, some value) ∈ options.slots := by
  change (name, value) ∈ options.slots.filterMap _ ↔ _
  simp only [List.mem_filterMap, Option.map_eq_some_iff, Prod.mk.injEq]
  constructor
  · rintro ⟨⟨_, _⟩, hslot, _, rfl, rfl, rfl⟩
    exact hslot
  · exact fun hslot => ⟨_, hslot, _, rfl, rfl, rfl⟩

theorem isSome_set? (options : ResourceOptions) (name : String) (value : Expr) :
    (options.set? name value).isSome = true ↔ name ∈ names := by
  unfold set?
  split <;> simp_all [names, slots]

private theorem slots_set? {next : ResourceOptions} (h : options.set? name value = some next) :
    next.slots = options.slots.map fun slot =>
      if slot.1 = name then (slot.1, some value) else slot := by
  unfold set? at h
  split at h <;> cases h <;> simp [slots]

private theorem mem_entries_set? {next : ResourceOptions} (h : options.set? name value = some next)
    {other : String} {expr : Expr} :
    (other, expr) ∈ next.entries ↔
      other = name ∧ expr = value ∨ other ≠ name ∧ (other, expr) ∈ options.entries := by
  simp only [mem_entries, slots_set? h, List.mem_map]
  constructor
  · rintro ⟨slot, hslot, heq⟩
    split at heq
    · next hname =>
      obtain ⟨rfl, hexpr⟩ := Prod.mk.inj heq
      exact .inl ⟨hname, (Option.some.inj hexpr).symm⟩
    · next hname =>
      subst heq
      exact .inr ⟨hname, hslot⟩
  · rintro (⟨rfl, rfl⟩ | ⟨hne, hslot⟩)
    · have hname : other ∈ options.slots.map Prod.fst := by
        rw [map_fst_slots, ← isSome_set? options other expr, h]
        rfl
      obtain ⟨slot, hslot, rfl⟩ := List.mem_map.mp hname
      exact ⟨slot, hslot, if_pos rfl⟩
    · exact ⟨_, hslot, if_neg hne⟩

private theorem mem_names_of_mem_entries (h : (name, value) ∈ options.entries) : name ∈ names := by
  rw [← map_fst_slots options]
  exact List.mem_map_of_mem (mem_entries.mp h)

end ResourceOptions

variable {key : String} {fields root : Json.Fields} {body : Json}

namespace Template

/-! ## Options of resources -/

def unknownOption (name key : String) : Diagnostic :=
  notice name s!"resource option `{key}` is not supported and was ignored"

theorem setOptions_unknown (name : String) (h : key ∉ ResourceOptions.names)
    (options : ResourceOptions) (value : Json) (rest : Json.Fields) :
    setOptions name options ((key, value) :: rest) =
      (do Reported.report (unknownOption name key); setOptions name options rest) := by
  have hnone : (options.set? key Expr.null).isNone = true := by
    rw [← ResourceOptions.isSome_set? options key Expr.null] at h
    simpa using h
  rw [setOptions, if_pos hnone]
  rfl

theorem setOptions_known (name : String) (h : key ∈ ResourceOptions.names)
    (options : ResourceOptions) (value : Json) (rest : Json.Fields) :
    ∃ next, options.set? key (expr name value).value = some next ∧
      setOptions name options ((key, value) :: rest) =
        (do let _ ← expr name value; setOptions name next rest) := by
  have hsome := (ResourceOptions.isSome_set? options key (expr name value).value).mpr h
  have hknown : ¬ (options.set? key Expr.null).isNone = true := by
    have := (ResourceOptions.isSome_set? options key Expr.null).mpr h
    simpa [Option.isSome_iff_ne_none] using this
  obtain ⟨next, hnext⟩ := Option.isSome_iff_exists.mp hsome
  refine ⟨next, hnext, ?_⟩
  rw [setOptions, if_neg hknown]
  simp only [bind, hnext, Option.getD_some]

/-- Options are set one after another, so that a later field wins over an earlier one of the same
name; where no name stands twice none is lost. -/
theorem mem_entries_setOptions {options : ResourceOptions} (hkeys : (fields.map Prod.fst).Nodup)
    {value : Expr} :
    (key, value) ∈ (setOptions name options fields).value.entries ↔
      (key ∈ ResourceOptions.names ∧
          ∃ json, (key, json) ∈ fields ∧ value = (expr name json).value) ∨
        key ∉ fields.map Prod.fst ∧ (key, value) ∈ options.entries := by
  induction fields generalizing options with
  | nil => simp [setOptions]
  | cons field rest ih =>
    obtain ⟨first, json⟩ := field
    obtain ⟨hfirst, hrest⟩ := List.nodup_cons.mp hkeys
    by_cases hknown : first ∈ ResourceOptions.names
    · obtain ⟨next, hnext, heq⟩ := setOptions_known name hknown options json rest
      rw [heq, Reported.value_bind, ih hrest, ResourceOptions.mem_entries_set? hnext]
      grind
    · rw [setOptions_unknown name hknown, Reported.value_bind, ih hrest]
      have := @ResourceOptions.mem_names_of_mem_entries key options value
      grind

theorem diagnostics_setOptions {options : ResourceOptions} {json : Json}
    (h : (key, json) ∈ fields) :
    (if key ∈ ResourceOptions.names then (expr name json).diagnostics
      else [unknownOption name key]) ⊆ (setOptions name options fields).diagnostics := by
  induction fields generalizing options with
  | nil => contradiction
  | cons field rest ih =>
    obtain ⟨first, other⟩ := field
    obtain ⟨next, heq⟩ : ∃ next, (setOptions name options ((first, other) :: rest)).diagnostics =
        (if first ∈ ResourceOptions.names then (expr name other).diagnostics
          else [unknownOption name first]) ++ (setOptions name next rest).diagnostics := by
      by_cases hknown : first ∈ ResourceOptions.names
      · obtain ⟨next, -, heq⟩ := setOptions_known name hknown options other rest
        exact ⟨next, by rw [heq, Reported.diagnostics_bind, if_pos hknown]⟩
      · exact ⟨options, by rw [setOptions_unknown name hknown, if_neg hknown]; rfl⟩
    rw [heq]
    rcases List.mem_cons.mp h with hfirst | hrest
    · obtain ⟨rfl, rfl⟩ := Prod.mk.inj hfirst
      exact List.subset_append_left _ _
    · exact List.subset_append_of_subset_right _ (ih hrest)

section

variable (diagnostics name)

inductive OptionsCarried : Option Json → ResourceOptions → Prop
  | absent : OptionsCarried none {}
  | members {fields : Json.Fields} {options : ResourceOptions}
      (hgiven : ∀ key json, (key, json) ∈ fields → key ∈ ResourceOptions.names →
        ∃ value, (key, value) ∈ options.entries ∧ Carried diagnostics name json value)
      (honly : ∀ key value, (key, value) ∈ options.entries →
        ∃ json, (key, json) ∈ fields ∧ Carried diagnostics name json value)
      (hunknown : ∀ key json, (key, json) ∈ fields → key ∉ ResourceOptions.names →
        unknownOption name key ∈ diagnostics) :
      OptionsCarried (some (.object fields)) options
  | reported {value : Json} (hshape : ∀ fields, value ≠ .object fields)
      (h : problem name s!"options of `{name}` must be an object" ∈ diagnostics) :
      OptionsCarried (some value) {}

end

theorem optionsCarried_options (hdistinct : (Json.object fields).Distinct)
    (h : (options name fields).diagnostics ⊆ diagnostics) :
    OptionsCarried diagnostics name (Json.get? fields "options") (options name fields).value := by
  unfold options at h ⊢
  split at h
  · next hnone => simp only [hnone]; exact .absent
  · next members hmembers =>
    have hkeys : (members.map Prod.fst).Nodup := (hdistinct.get? hmembers).nodup
    have hgiven {key : String} {json : Json} (hfield : (key, json) ∈ members)
        (hname : key ∈ ResourceOptions.names) :
        (expr name json).diagnostics ⊆ (setOptions name {} members).diagnostics := by
      simpa [hname] using diagnostics_setOptions hfield
    simp only [hmembers]
    refine .members (fun key json hfield hname => ?_) (fun key value hentry => ?_)
      (fun key json hfield hname => ?_)
    · refine ⟨(expr name json).value,
        (mem_entries_setOptions hkeys).mpr (.inl ⟨hname, json, hfield, rfl⟩), ?_⟩
      exact carried_expr json (List.Subset.trans (hgiven hfield hname) h)
    · rcases (mem_entries_setOptions hkeys).mp hentry with
        ⟨hname, json, hfield, rfl⟩ | ⟨-, hdefault⟩
      · exact ⟨json, hfield, carried_expr json (List.Subset.trans (hgiven hfield hname) h)⟩
      · contradiction
    · refine h (diagnostics_setOptions hfield ?_)
      simp [hname]
  · next value hshape hvalue =>
    simp only [hvalue]
    exact .reported hshape (h List.mem_cons_self)

/-! ## Declarations -/

/-- The type of a setting: the one it declares, else that of its default. -/
inductive TypeCarried (fields : Json.Fields) : ConfigType → Prop
  | declared {text : String} {type : ConfigType}
      (hfield : Json.get? fields "type" = some (.string text))
      (htype : ConfigType.ofName? text = some type) : TypeCarried fields type
  | inferred {value : Json} {type : ConfigType} (hfield : Json.get? fields "type" = none)
      (hdefault : Json.get? fields "default" = some value) (htype : inferType value = some type) :
      TypeCarried fields type

section

variable (diagnostics name)

inductive DefaultCarried : Option Json → Option Expr → Prop
  | absent : DefaultCarried none none
  | given {value : Json} {expr : Expr} (h : Carried diagnostics name value expr) :
      DefaultCarried (some value) (some expr)

/-- Whether a setting is secret. What is no truth value counts as false, without a word. -/
inductive SecretRead : Option Json → Bool → Prop
  | absent : SecretRead none false
  | given (value : Bool) : SecretRead (some (.bool value)) value
  | ignored {value : Json} (hshape : ∀ truth, value ≠ .bool truth) : SecretRead (some value) false

inductive NodeCarried : Section → Json → Node → Prop
  | config {fields : Json.Fields} {type : ConfigType} {default : Option Expr}
      {secret : Bool} (htype : TypeCarried fields type)
      (hdefault : DefaultCarried diagnostics name (Json.get? fields "default") default)
      (hsecret : SecretRead (Json.get? fields "secret") secret) :
      NodeCarried .configuration (.object fields) (.config name type default secret)
  | resource {fields : Json.Fields} {token : String} {properties : Members}
      {options : ResourceOptions} (htype : Json.get? fields "type" = some (.string token))
      (hproperties : OptionalCarried diagnostics name
        (problem name s!"properties of `{name}` must be an object")
        (Json.get? fields "properties") properties)
      (hoptions : OptionsCarried diagnostics name (Json.get? fields "options") options) :
      NodeCarried .resources (.object fields) (.resource name token properties options)
  | variable {body : Json} {value : Expr} (h : Carried diagnostics name body value) :
      NodeCarried .variables body (.variable name value)
  | output {body : Json} {value : Expr} (h : Carried diagnostics name body value) :
      NodeCarried .outputs body (.output name value)

inductive Refused : Section → Json → String → Prop
  | configShape {body : Json} (hshape : ∀ fields, body ≠ .object fields) :
      Refused .configuration body s!"configuration `{name}` must be an object"
  | unknownType {fields : Json.Fields} {text : String}
      (hfield : Json.get? fields "type" = some (.string text))
      (htype : ConfigType.ofName? text = none) :
      Refused .configuration (.object fields) s!"unknown configuration type `{text}`"
  | typeShape {fields : Json.Fields} {value : Json}
      (hfield : Json.get? fields "type" = some value) (hshape : ∀ text, value ≠ .string text) :
      Refused .configuration (.object fields) s!"configuration `{name}` has a non-string type"
  | untyped {fields : Json.Fields} (hfield : Json.get? fields "type" = none)
      (hdefault : ∀ value, Json.get? fields "default" = some value → inferType value = none) :
      Refused .configuration (.object fields)
        s!"configuration `{name}` needs a `type` or a default value"
  | resourceShape {body : Json} (hshape : ∀ fields, body ≠ .object fields) :
      Refused .resources body s!"resource `{name}` must be an object"
  | tokenShape {fields : Json.Fields}
      (htype : ∀ token, Json.get? fields "type" ≠ some (.string token)) :
      Refused .resources (.object fields) s!"resource `{name}` is missing its `type`"

/-- An entry has one declaration, or an error under its name says why it has none. -/
inductive EntryCarried : Section × String × Json → Option Node → Prop
  | node {kind : Section} {name : String} {body : Json} {node : Node}
      (h : NodeCarried diagnostics name kind body node) :
      EntryCarried (kind, name, body) (some node)
  | refused {kind : Section} {name message : String} {body : Json} {diagnostic : Diagnostic}
      (hreason : Refused name kind body message) (hmem : diagnostic ∈ diagnostics)
      (herror : diagnostic.isError = true) (hsubject : diagnostic.subject = some name)
      (hmessage : diagnostic.message = message) :
      EntryCarried (kind, name, body) none

end

private theorem configType_cases (name : String) (fields : Json.Fields) :
    (∃ type, configType name fields = .ok type ∧ TypeCarried fields type) ∨
      ∃ message, configType name fields = .error message ∧
        Refused name .configuration (.object fields) message := by
  unfold configType
  split
  · next text hfield =>
    split
    · next type htype => exact .inl ⟨type, rfl, .declared hfield htype⟩
    · next htype => exact .inr ⟨_, rfl, .unknownType hfield htype⟩
  · next value hshape hfield => exact .inr ⟨_, rfl, .typeShape hfield hshape⟩
  · next hfield =>
    split
    · next type htype =>
      obtain ⟨value, hdefault, htype⟩ := Option.bind_eq_some_iff.mp htype
      exact .inl ⟨type, rfl, .inferred hfield hdefault htype⟩
    · next hnone =>
      exact .inr ⟨_, rfl, .untyped hfield (Option.bind_eq_none_iff.mp hnone)⟩

theorem EntryCarried.of_problem {kind : Section} {message : String}
    (hreason : Refused name kind body message) (hmem : problem name message ∈ diagnostics) :
    EntryCarried diagnostics (kind, name, body) none :=
  .refused hreason hmem rfl rfl rfl

private theorem defaultCarried_optionalExpr (value : Option Json)
    (h : (optionalExpr name value).diagnostics ⊆ diagnostics) :
    DefaultCarried diagnostics name value (optionalExpr name value).value := by
  cases value with
  | none => exact .absent
  | some value =>
    simp only [optionalExpr, Reported.diagnostics_bind, List.append_subset] at h
    exact .given (carried_expr value h.1)

private theorem entryCarried_config (name : String) (body : Json)
    (h : (config name body).diagnostics ⊆ diagnostics) :
    EntryCarried diagnostics (.configuration, name, body) (config name body).value := by
  cases body with
  | object fields =>
    rcases configType_cases name fields with ⟨type, htype, hcarried⟩ | ⟨message, htype, hreason⟩
    · simp only [config, htype, Reported.diagnostics_bind, List.append_subset] at h ⊢
      refine .node (.config hcarried (defaultCarried_optionalExpr _ h.1) ?_)
      split
      · next value hvalue => exact hvalue ▸ .given value
      · next hshape =>
        cases hvalue : Json.get? fields "secret" with
        | none => exact .absent
        | some value => exact .ignored fun truth heq => hshape truth (hvalue.trans (heq ▸ rfl))
    · simp only [config, htype] at h ⊢
      exact .of_problem hreason (h List.mem_cons_self)
  | null | bool | int | real | string | array =>
    exact .of_problem (.configShape (by simp)) (h List.mem_cons_self)

theorem optionalCarried_properties (h : (properties name fields).diagnostics ⊆ diagnostics) :
    OptionalCarried diagnostics name (problem name s!"properties of `{name}` must be an object")
      (Json.get? fields "properties") (properties name fields).value := by
  unfold properties at h ⊢
  split at h
  · next hnone =>
    simp only [hnone]
    exact .absent _
  · next members hmembers =>
    simp only [hmembers]
    exact .members (membersCarried_entries members h)
  · next value hshape hvalue =>
    simp only [hvalue]
    exact .reported hshape (h List.mem_cons_self)

private theorem entryCarried_resource (name : String) (hdistinct : body.Distinct)
    (h : (resource name body).diagnostics ⊆ diagnostics) :
    EntryCarried diagnostics (.resources, name, body) (resource name body).value := by
  cases body with
  | object fields =>
    unfold resource at h ⊢
    dsimp only at h ⊢
    split at h
    · next token htoken =>
      simp only [Reported.diagnostics_bind, List.append_subset] at h
      exact .node (.resource htoken (optionalCarried_properties h.1)
        (optionsCarried_options hdistinct h.2.1))
    · next htoken => exact .of_problem (.tokenShape htoken) (h List.mem_cons_self)
  | null | bool | int | real | string | array =>
    exact .of_problem (.resourceShape (by simp)) (h List.mem_cons_self)

private theorem entryCarried_node (kind : Section) (name : String) (hdistinct : body.Distinct)
    (h : (node kind name body).diagnostics ⊆ diagnostics) :
    EntryCarried diagnostics (kind, name, body) (node kind name body).value := by
  cases kind
  · exact entryCarried_config name body h
  · exact entryCarried_resource name hdistinct h
  · simp only [node, Reported.diagnostics_bind, List.append_subset] at h
    exact .node (.variable (carried_expr body h.1))
  · simp only [node, Reported.diagnostics_bind, List.append_subset] at h
    exact .node (.output (carried_expr body h.1))

/-! ## Sections -/

def entriesOf (root : Json.Fields) (kind : Section) : List (Section × String × Json) :=
  match Json.get? root kind.name with
  | some (.object fields) => fields.map fun field => (kind, field.1, field.2)
  | _ => []

def EntriesCarried (diagnostics : List Diagnostic) (entries : List (Section × String × Json))
    (nodes : List Node) : Prop :=
  ∃ outcomes, List.Forall₂ (EntryCarried diagnostics) entries outcomes ∧
    nodes = outcomes.flatMap Option.toList

theorem EntriesCarried.append {first second : List (Section × String × Json)}
    {nodes others : List Node} (hfirst : EntriesCarried diagnostics first nodes)
    (hsecond : EntriesCarried diagnostics second others) :
    EntriesCarried diagnostics (first ++ second) (nodes ++ others) := by
  obtain ⟨outcomes, houtcomes, rfl⟩ := hfirst
  obtain ⟨later, hlater, rfl⟩ := hsecond
  exact ⟨outcomes ++ later, List.rel_append houtcomes hlater, List.flatMap_append.symm⟩

theorem entriesCarried_nodes (kind : Section) (hdistinct : ∀ field ∈ fields, field.2.Distinct)
    (h : (nodes kind fields).diagnostics ⊆ diagnostics) :
    EntriesCarried diagnostics (fields.map fun field => (kind, field.1, field.2))
      (nodes kind fields).value := by
  induction fields with
  | nil => exact ⟨[], .nil, rfl⟩
  | cons field rest ih =>
    obtain ⟨name, body⟩ := field
    simp only [nodes, Reported.diagnostics_bind, List.append_subset] at h
    have hfirst := entryCarried_node kind name (hdistinct _ List.mem_cons_self) h.1
    have hrest := ih (fun field hfield => hdistinct field (List.mem_cons_of_mem _ hfield)) h.2.1
    exact EntriesCarried.append ⟨[_], .cons hfirst .nil, by simp⟩ hrest

def sectionFault (kind : Section) : Diagnostic :=
  .error .malformed s!"section `{kind.name}` must be an object"

theorem entriesCarried_loadSection (hdistinct : (Json.object root).Distinct) (kind : Section)
    (h : (loadSection root kind).diagnostics ⊆ diagnostics) :
    EntriesCarried diagnostics (entriesOf root kind) (loadSection root kind).value ∧
      ∀ body, Json.get? root kind.name = some body →
        (∃ fields, body = .object fields) ∨ sectionFault kind ∈ diagnostics := by
  cases hbody : Json.get? root kind.name with
  | none =>
    simp only [loadSection, entriesOf, hbody]
    exact ⟨⟨[], .nil, rfl⟩, by simp⟩
  | some body =>
    cases body with
    | object fields =>
      simp only [loadSection, entriesOf, hbody] at h ⊢
      cases hdistinct.get? hbody with
      | object _ hvalues =>
        exact ⟨entriesCarried_nodes kind hvalues h,
          fun _ heq => .inl ⟨fields, (Option.some.inj heq).symm⟩⟩
    | null | bool | int | real | string | array =>
      simp only [loadSection, entriesOf, hbody] at h ⊢
      exact ⟨⟨[], .nil, rfl⟩, fun _ _ => .inr (h List.mem_cons_self)⟩

theorem entriesCarried_sections (hdistinct : (Json.object root).Distinct) (kinds : List Section)
    (h : (sections root kinds).diagnostics ⊆ diagnostics) :
    EntriesCarried diagnostics (kinds.flatMap (entriesOf root)) (sections root kinds).value ∧
      ∀ kind ∈ kinds, ∀ body, Json.get? root kind.name = some body →
        (∃ fields, body = .object fields) ∨ sectionFault kind ∈ diagnostics := by
  induction kinds with
  | nil => exact ⟨⟨[], .nil, rfl⟩, by simp⟩
  | cons kind rest ih =>
    simp only [sections, Reported.diagnostics_bind, List.append_subset] at h
    obtain ⟨hentries, hsection⟩ := entriesCarried_loadSection hdistinct kind h.1
    obtain ⟨hrest, hsections⟩ := ih h.2.1
    refine ⟨hentries.append hrest, fun other hother => ?_⟩
    rcases List.mem_cons.mp hother with rfl | hmem
    · exact hsection
    · exact hsections other hmem

structure Accounted (root : Json.Fields) (nodes : List Node)
    (diagnostics : List Diagnostic) : Prop where
  /-- A section that is there is an object, or it is reported. -/
  sections : ∀ kind body, Json.get? root kind.name = some body →
    (∃ fields, body = .object fields) ∨ sectionFault kind ∈ diagnostics
  /-- Entries are accounted for in the order of the sections and of the keys in each. -/
  entries : EntriesCarried diagnostics (Section.all.flatMap (entriesOf root)) nodes

theorem accounted_load (hdistinct : (Json.object root).Distinct) :
    ∃ loaded, load (.object root) = .ok loaded ∧
      Accounted root loaded.value.nodes loaded.diagnostics := by
  refine ⟨_, rfl, ?_⟩
  obtain ⟨hentries, hsections⟩ := entriesCarried_sections hdistinct Section.all
    (List.subset_append_left _ (Reported.diagnostics (pure ())))
  refine ⟨fun kind => hsections kind ?_, hentries⟩
  cases kind <;> simp [Section.all]

private theorem config_eq_of_secret_ignored (name : String) {value : Json}
    (hvalue : Json.get? fields "secret" = some value) (hshape : ∀ truth, value ≠ .bool truth) :
    config name (.object fields) =
      config name (.object (fields.filter fun field => field.1 != "secret")) := by
  have hkeep : ∀ {key}, key ≠ "secret" →
      Json.get? (fields.filter fun field => field.1 != "secret") key = Json.get? fields key :=
    fun hne => lookup_filter_ne fields hne
  have htype : configType name (fields.filter fun field => field.1 != "secret") =
      configType name fields := by
    rw [configType, configType, hkeep (by decide), hkeep (by decide)]
  have hdefault := @hkeep "default" (by decide)
  have hgone : Json.get? (fields.filter fun field => field.1 != "secret") "secret" = none :=
    lookup_filter_self fields "secret"
  cases value with
  | bool truth => exact absurd rfl (hshape truth)
  | null | int | real | string | array | object =>
    simp only [config, htype, hdefault, hvalue, hgone]

/-- An object that has no key twice is loaded, and a text is a template when it is a JSON object:
its value never has a key twice. A template loses no section, no entry and no field that its entries
know without a word, except for a `secret` that is no truth value: the setting is then read as if
the field was not there. -/
theorem parse_loses_only_secrets (root : Json.Fields) (text : String) :
    ((Json.object root).Distinct → ∃ loaded, load (.object root) = .ok loaded ∧
        Accounted root loaded.value.nodes loaded.diagnostics) ∧
      ((∃ fault, parse text = .error fault) ∧
          (∀ found, Json.parse? text ≠ some (.object found)) ∨
        ∃ found loaded, Json.parse? text = some (.object found) ∧ parse text = .ok loaded ∧
          Accounted found loaded.value.nodes loaded.diagnostics) ∧
      ∀ name fields value, Json.get? fields "secret" = some value →
        (∀ truth, value ≠ .bool truth) →
        config name (.object fields) =
          config name (.object (fields.filter fun field => field.1 != "secret")) := by
  refine ⟨accounted_load, ?_, fun name fields value => config_eq_of_secret_ignored name⟩
  cases hjson : Json.parse? text with
  | none => exact .inl ⟨⟨.notJson, by rw [parse, hjson]⟩, by simp⟩
  | some json =>
    cases json with
    | object found =>
      obtain ⟨loaded, hload, haccounted⟩ := accounted_load (Json.distinct_of_parse? hjson)
      exact .inr ⟨found, loaded, rfl, by rw [parse, hjson]; exact hload, haccounted⟩
    | null | bool | int | real | string | array =>
      exact .inl ⟨⟨.notAnObject, by rw [parse, hjson]; rfl⟩, by simp⟩

def textualSecret : Json.Fields :=
  [("configuration",
    .object [("password", .object [("type", .string "String"), ("secret", .string "true")])])]

theorem load_textualSecret :
    load (.object textualSecret) = .ok ⟨⟨[.config "password" .string none false]⟩, []⟩ := by
  rfl

end Template

end Provision
