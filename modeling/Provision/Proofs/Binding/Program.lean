import Provision.Proofs.Binding.Variables

/-!
# Bound programs

Every declaration is bound as one of the same name and kind. All expressions of a bound program
are free of `apply` and placeholders, and when no error is reported every part of them follows the
rules, the types of variables being those of the values that the bound program holds. Every part
of a bound program is what some expression was evaluated to.
-/

namespace Provision.Binding

/-! ## Sites of declarations -/

def Site.typed (site : Site) : Ty × Bound.Expr := (site.slot, site.bound)

def optionSites (options : ResourceOptions) (bound : Bound.Options Bound.Expr) : List Site :=
  sitesIn .anyResource options.parent.toList bound.parent.toList
    ++ sitesIn .anyResource (options.dependsOn.toList.flatMap listItems) bound.dependsOn
    ++ sitesIn .bool options.protect.toList bound.protect.toList
    ++ sitesIn .anyResource options.provider.toList bound.provider.toList
    ++ sitesIn .string (options.aliases.toList.flatMap listItems) bound.aliases
    ++ sitesIn .bool options.deleteBeforeReplace.toList bound.deleteBeforeReplace.toList
    ++ sitesIn .string options.importId.toList bound.importId.toList
    ++ sitesIn .string options.version.toList bound.version.toList

def nodeSites : Node → Bound.Node → List Site
  | .config _ type default _, ⟨_, .config _ _ bound _⟩ =>
    sitesIn (configTy type) default.toList bound.toList
  | .resource _ _ properties options, ⟨_, .resource _ bound boundOptions⟩ =>
    memberSites properties bound ++ optionSites options boundOptions
  | .variable _ value, ⟨_, .variable bound⟩ => [⟨.any, value, bound⟩]
  | .output _ value, ⟨_, .output bound⟩ => [⟨.any, value, bound⟩]
  | _, _ => []

def propertySlot (registry : Schema.Registry) (token : String) : String → Except String Ty :=
  inputSlot ((registry.resource? token).map Schema.Resource.inputs) "an input property" token

theorem map_typed_sitesIn {slot : Ty} {items : List Expr} {values : List Bound.Expr}
    (h : values.length = items.length) :
    (sitesIn slot items values).map Site.typed = values.map (slot, ·) := by
  induction items generalizing values with
  | nil => simp_all [sitesIn]
  | cons item rest ih =>
    cases values with
    | nil => simp at h
    | cons value values => exact congrArg ((slot, value) :: ·) (ih (Nat.succ.inj h))

theorem map_typed_memberSites {entries : Members} {members : List Bound.Member}
    (h : ∀ member ∈ members, ∃ value, entries.lookup member.key = some value) :
    (memberSites entries members).map Site.typed = members.map Bound.Slot.typed := by
  induction members with
  | nil => rfl
  | cons member rest ih =>
    obtain ⟨⟨value, hvalue⟩, hrest⟩ := List.forall_mem_cons.mp h
    simpa [memberSites, hvalue, Site.typed, Bound.Slot.typed] using ih hrest

variable {site : Site}

theorem bare_of_mem_optionSites {options : ResourceOptions} {bound : Bound.Options Bound.Expr}
    (h : site ∈ optionSites options bound) : site.slot.bare = true := by
  simp only [optionSites, List.mem_append] at h
  rcases h with ((((((h | h) | h) | h) | h) | h) | h) | h <;>
  · rw [(mem_sitesIn h).1]
    rfl

/-! ## Resources -/

section

variable {scope : Scope} {inv : State → Prop} {allowed : String → Prop}
  {known : State → Nat → Ty → Prop} {state : State} (tracks : Tracks scope inv allowed known)
  (hallowed : ∀ root, allowed root)

include tracks

theorem ensures_propertyNames (option : String) (items : List Expr) :
    Ensures inv (propertyNames scope option items) state fun _ _ => True := by
  induction items generalizing state with
  | nil => exact .pure trivial
  | cons item rest ih =>
    unfold propertyNames
    split
    · next heq => cases heq
    · next heq =>
      cases heq
      exact ih.bind fun _ _ _ _ => .pure trivial
    · next heq =>
      cases heq
      exact (ensures_fail tracks _ _ _).bind fun _ _ _ _ => ih

private theorem ensures_timeoutEntries (timeouts : Bound.Timeouts) (entries : Members) :
    Ensures inv (timeoutEntries scope timeouts entries) state fun _ _ => True := by
  induction entries generalizing timeouts state with
  | nil => exact .pure trivial
  | cons entry rest ih =>
    obtain ⟨operation, value⟩ := entry
    rw [timeoutEntries]
    split
    · exact (ensures_fail tracks _ _ _).bind fun _ _ _ _ => ih _
    · split
      · exact ih _
      · exact (ensures_fail tracks _ _ _).bind fun _ _ _ _ => ih _

private theorem ensures_bindTimeouts (timeouts : Option Expr) :
    Ensures inv (bindTimeouts scope timeouts) state fun _ _ => True := by
  unfold bindTimeouts
  split
  · exact .pure trivial
  · exact ensures_timeoutEntries tracks _ _
  · exact (ensures_fail tracks _ _ _).bind fun _ _ _ _ => .pure trivial

include hallowed

theorem ensures_bindOption (expected : Ty) (value : Option Expr) :
    Ensures inv (bindOption scope expected value) state fun bound after =>
      bound.toList.length = value.toList.length ∧
        ∀ site ∈ sitesIn expected value.toList bound.toList, Binds scope known after site := by
  cases value with
  | none => exact .pure (by simp [sitesIn])
  | some value =>
    refine (ensures_bindExpr tracks value fun root _ => hallowed root).bind
      fun bound after _ h => ?_
    exact .pure ⟨rfl, List.forall_mem_singleton.mpr h⟩

theorem ensures_bindProperties (slot : String → Except String Ty) (seen : List String)
    (properties : Members) :
    Ensures inv (bindProperties scope slot seen properties) state fun bound after =>
      Keeps slot repeatedProperty none (after.Reported scope.subject) seen properties bound ∧
        ∀ site ∈ memberSites properties bound, Binds scope known after site := by
  induction properties generalizing seen state with
  | nil => exact .pure ⟨.nil, by simp [memberSites]⟩
  | cons property rest ih =>
    obtain ⟨name, value⟩ := property
    rw [bindProperties]
    split
    · next hseen =>
      have hseen : name ∈ seen := by simpa using hseen
      refine (ensures_fail tracks _ _ _).bind fun _ _ _ hreport hinv => ?_
      obtain ⟨hextends, hinv', hkeeps, hsites⟩ := ih seen hinv
      refine ⟨hextends, hinv', .repeated hseen (hextends.reported _ _ hreport) hkeeps, ?_⟩
      exact memberSites_repeated hkeeps hseen value ▸ hsites
    · next hseen =>
      have hseen : name ∉ seen := by simpa using hseen
      split
      · next message hslot =>
        refine (ensures_fail tracks _ _ _).bind fun _ _ _ hreport hinv => ?_
        obtain ⟨hextends, hinv', hkeeps, hsites⟩ := ih (name :: seen) hinv
        refine ⟨hextends, hinv', .refused hseen hslot ?_ hkeeps, ?_⟩
        · simpa [refusedMember] using hextends.reported _ _ hreport
        · exact memberSites_repeated hkeeps List.mem_cons_self value ▸ hsites
      · next expected hslot =>
        refine (ensures_bindExpr tracks value fun root _ => hallowed root).bind
          fun bound _ _ hvalue => ?_
        refine (ih (name :: seen)).bind fun others after hextends h => ?_
        refine .pure ⟨.kept hseen hslot h.1, ?_⟩
        rw [memberSites_kept h.1]
        exact List.forall_mem_cons.mpr ⟨hvalue.later tracks hextends, h.2⟩

private theorem ensures_bindOptions (options : ResourceOptions) :
    Ensures inv (bindOptions scope options) state fun bound after =>
      (optionSites options bound).map Site.typed = bound.slots ∧
        ∀ site ∈ optionSites options bound, Binds scope known after site := by
  unfold bindOptions
  refine (ensures_bindOption tracks hallowed _ _).bind fun parent _ _ hparent => ?_
  refine (ensures_bindOption tracks hallowed _ _).bind fun provider _ e1 hprovider => ?_
  refine (ensures_bindOption tracks hallowed _ _).bind fun protect _ e2 hprotect => ?_
  refine (ensures_bindList tracks _ fun root _ => hallowed root).bind
    fun dependsOn _ e3 hdependsOn => ?_
  refine (ensures_propertyNames tracks _ _).bind fun _ _ e4 _ => ?_
  refine (ensures_propertyNames tracks _ _).bind fun _ _ e5 _ => ?_
  refine (ensures_bindList tracks _ fun root _ => hallowed root).bind
    fun aliases _ e6 haliases => ?_
  refine (ensures_bindOption tracks hallowed _ _).bind fun replace _ e7 hreplace => ?_
  refine (ensures_bindOption tracks hallowed _ _).bind fun importId _ e8 himportId => ?_
  refine (ensures_bindOption tracks hallowed _ _).bind fun version _ e9 hversion => ?_
  refine (ensures_bindTimeouts tracks _).bind fun _ _ e10 _ => .pure ⟨?_, fun site hsite => ?_⟩
  · simp only [optionSites, Bound.Options.slots, List.map_append, map_typed_sitesIn hparent.1,
      map_typed_sitesIn hdependsOn.1, map_typed_sitesIn hprotect.1, map_typed_sitesIn hprovider.1,
      map_typed_sitesIn haliases.1, map_typed_sitesIn hreplace.1, map_typed_sitesIn himportId.1,
      map_typed_sitesIn hversion.1]
  -- Each option elaborates where it is bound; the later ones only extend the state.
  have e9 := e9.trans e10
  have e8 := e8.trans e9
  have e7 := e7.trans e8
  have e4 := e4.trans (e5.trans (e6.trans e7))
  have e3 := e3.trans e4
  have e2 := e2.trans e3
  have e1 := e1.trans e2
  simp only [optionSites, List.mem_append] at hsite
  rcases hsite with ((((((h | h) | h) | h) | h) | h) | h) | h
  · exact (hparent.2 site h).later tracks e1
  · exact (hdependsOn.2 site h).later tracks e4
  · exact (hprotect.2 site h).later tracks e3
  · exact (hprovider.2 site h).later tracks e2
  · exact (haliases.2 site h).later tracks e7
  · exact (hreplace.2 site h).later tracks e8
  · exact (himportId.2 site h).later tracks e9
  · exact (hversion.2 site h).later tracks e10

end

/-! ## Declarations -/

structure ResourceShape (registry : Schema.Registry) (reported : Diagnostic → Prop)
    (token : String) (properties : Members) (options : ResourceOptions)
    (bound : List Bound.Member) (boundOptions : Bound.Options Bound.Expr) : Prop where
  known : registry.resource? token = none → Failing reported
  keeps : Keeps (propertySlot registry token) repeatedProperty none reported [] properties bound
  complete : Complete reported "property" token none (properties.map Prod.fst)
    (((registry.resource? token).map Schema.Resource.inputs).getD [])
  options : (optionSites options boundOptions).map Site.typed = boundOptions.slots

theorem ResourceShape.mono {registry : Schema.Registry} {reported reported' : Diagnostic → Prop}
    {token : String} {properties : Members} {options : ResourceOptions}
    {bound : List Bound.Member} {boundOptions : Bound.Options Bound.Expr}
    (hreported : ∀ diagnostic, reported diagnostic → reported' diagnostic)
    (h : ResourceShape registry reported token properties options bound boundOptions) :
    ResourceShape registry reported' token properties options bound boundOptions :=
  ⟨fun htoken => (h.known htoken).mono hreported, h.keeps.mono hreported,
    h.complete.mono hreported, h.options⟩

theorem ensures_bindResource {scope : Scope} {inv : State → Prop} {allowed : String → Prop}
    {known : State → Nat → Ty → Prop} {state : State} (tracks : Tracks scope inv allowed known)
    (hallowed : ∀ root, allowed root) (token : String) (properties : Members)
    (options : ResourceOptions) :
    Ensures inv (bindResource scope token properties options) state fun body after =>
      ∃ bound boundOptions, body = .resource token bound boundOptions ∧
        ResourceShape scope.registry (after.Reported scope.subject) token properties options bound
          boundOptions ∧
        ∀ site ∈ memberSites properties bound ++ optionSites options boundOptions,
          Binds scope known after site := by
  unfold bindResource
  refine (ensures_reportToken tracks _ _ _ _).bind fun _ _ _ htoken => ?_
  refine (ensures_bindProperties tracks hallowed _ [] properties).bind fun bound _ e1 hbound => ?_
  refine (ensures_reportMissingInputs tracks _ _ _ _ _).bind fun _ _ e2 hcomplete => ?_
  refine (ensures_bindOptions tracks hallowed options).bind fun boundOptions _ e3 hoptions => ?_
  refine .pure ⟨bound, boundOptions, rfl, ⟨fun hnone => ?_,
    hbound.1.mono ((e2.trans e3).reported _), hcomplete.mono (e3.reported _), hoptions.1⟩,
    fun site hsite => ?_⟩
  · exact (htoken (by simp [hnone])).mono ((e1.trans (e2.trans e3)).reported _)
  · rcases List.mem_append.mp hsite with h | h
    · exact (hbound.2 site h).later tracks (e2.trans e3)
    · exact hoptions.2 site h

section

variable (program : Program) (registry : Schema.Registry) (symbols : Symbols)

def programScope (subject : String) : Scope :=
  variableScope program registry symbols (program.nodes.length + 1) subject

variable (state : State) (position : Nat)

inductive BoundAs : Node → Bound.Node → Prop
  | config {name : String} {type : ConfigType} {default : Option Expr} {secret : Bool}
      {bound : Option Bound.Expr} : bound.toList.length = default.toList.length →
      (∀ site ∈ sitesIn (configTy type) default.toList bound.toList,
        Binds (programScope program registry symbols name) (Known program) state site) →
        BoundAs (.config name type default secret)
          ⟨name, .config type (configTy type) bound secret⟩
  | resource {name token : String} {properties : Members} {options : ResourceOptions}
      {bound : List Bound.Member} {boundOptions : Bound.Options Bound.Expr} :
      ResourceShape registry (state.Reported name) token properties options bound boundOptions →
      (∀ site ∈ memberSites properties bound ++ optionSites options boundOptions,
        Binds (programScope program registry symbols name) (Known program) state site) →
        BoundAs (.resource name token properties options)
          ⟨name, .resource token bound boundOptions⟩
  | variable {name : String} {value : Expr} {bound : Bound.Expr} :
      state.progress.lookup position = some (.done bound) →
        BoundAs (.variable name value) ⟨name, .variable bound⟩
  | output {name : String} {value : Expr} {bound : Bound.Expr} :
      Binds (programScope program registry symbols name) (Known program) state
        ⟨.any, value, bound⟩ →
        BoundAs (.output name value) ⟨name, .output bound⟩

end

variable {name : String}

section

variable {program : Program} {registry : Schema.Registry} {symbols : Symbols}

theorem BoundAs.mono {before after : State} {position : Nat} {node : Node} {bound : Bound.Node}
    (hextends : before.Extends after)
    (h : BoundAs program registry symbols before position node bound) :
    BoundAs program registry symbols after position node bound := by
  have hbinds : ∀ {name site},
      Binds (programScope program registry symbols name) (Known program) before site →
        Binds (programScope program registry symbols name) (Known program) after site :=
    fun {name _} h => Elaborates.mono (Known.mono hextends) (hextends.reported name) h
  cases h with
  | config hlength h => exact .config hlength fun site hsite => hbinds (h site hsite)
  | resource hshape h =>
    exact .resource (hshape.mono (hextends.reported _)) fun site hsite => hbinds (h site hsite)
  | «variable» h => exact .variable (hextends.done _ _ h)
  | output h => exact .output (hbinds h)

section

variable {state : State} {position : Nat} {node : Node} {bound : Bound.Node}
  (h : BoundAs program registry symbols state position node bound)

include h

theorem BoundAs.slots_eq : (nodeSites node bound).map Site.typed = bound.slots := by
  cases h with
  | config hlength _ => exact map_typed_sitesIn hlength
  | resource hshape _ =>
    rw [nodeSites, List.map_append, hshape.options,
      map_typed_memberSites fun _ => hshape.keeps.exists_lookup]
    rfl
  | «variable» _ => rfl
  | output _ => rfl

theorem BoundAs.exists_site {slot : Ty} {value : Bound.Expr}
    (hslot : (slot, value) ∈ bound.slots) :
    ∃ item, ⟨slot, item, value⟩ ∈ nodeSites node bound := by
  rw [← h.slots_eq] at hslot
  obtain ⟨⟨slot, item, value⟩, hsite, heq⟩ := List.mem_map.mp hslot
  cases heq
  exact ⟨item, hsite⟩

theorem BoundAs.bare_slot (hsite : site ∈ nodeSites node bound) : site.slot.bare = true := by
  cases h with
  | config _ _ =>
    rw [(mem_sitesIn hsite).1]
    exact bare_configTy _
  | resource hshape _ =>
    rcases List.mem_append.mp hsite with hsite | hsite
    · obtain ⟨member, hmember, value, -, rfl⟩ := mem_memberSites.mp hsite
      obtain hany | ⟨declared, -, property, -, hproperty⟩ :=
        inputSlot_cases (hshape.keeps.slot_eq hmember)
      · exact hany ▸ rfl
      · exact hproperty ▸ property.bare_toTy
    · exact bare_of_mem_optionSites hsite
  | «variable» _ | output _ =>
    obtain rfl := List.mem_singleton.mp hsite
    rfl

theorem BoundAs.binds (hconsistent : Consistent program registry symbols [] state)
    (hnode : program.nodes[position]? = some node) (hsite : site ∈ nodeSites node bound) :
    Binds (programScope program registry symbols node.name) (Known program) state site := by
  cases h with
  | config _ h | resource _ h => exact h site hsite
  | «variable» hdone =>
    obtain rfl := List.mem_singleton.mp hsite
    obtain ⟨name, declared, hfound, h⟩ := hconsistent.done _ _ hdone
    obtain ⟨rfl, rfl⟩ := Node.variable.inj (Option.some.inj (hnode.symm.trans hfound))
    exact h
  | output h =>
    obtain rfl := List.mem_singleton.mp hsite
    exact h

end

variable (hsymbols : ∀ root, symbols.lookup root = program.declaration? root)

include hsymbols

theorem ensures_programVariable {position : Nat} {value : Expr} {state : State}
    (hnode : program.nodes[position]? = some (.variable name value)) :
    Ensures (Consistent program registry symbols [])
      (variableValue program registry symbols (program.nodes.length + 1) position) state
      fun bound after => after.progress.lookup position = some (.done bound) := by
  have hchain : Chain program [] position := ⟨List.nodup_nil, by simp⟩
  refine (ensures_variableValue hsymbols hnode hchain (by simp)).weaken fun bound after h => ?_
  rcases h with hdone | ⟨hmem, -⟩
  · exact hdone
  · simp at hmem

private theorem tracks_programScope (subject : String) :
    Tracks (programScope program registry symbols subject)
      (Consistent program registry symbols []) (fun _ => True) (Known program) where
  report _ diagnostic h := h.report diagnostic
  mono _ _ position ty hextends := Known.mono hextends position ty
  read root read other inner state _ hlookup := by
    have hdeclared : program.declaration? root = some (read, .variable other inner) := by
      rw [← hsymbols]
      exact hlookup
    refine (ensures_programVariable hsymbols
      (Program.getElem?_of_declaration? hdeclared)).weaken fun bound after h => ?_
    exact .inl ⟨bound, h, rfl⟩

private theorem ensures_bindNode {position : Nat} {node : Node} {state : State}
    (hnode : program.nodes[position]? = some node) :
    Ensures (Consistent program registry symbols [])
      (bindNode (programScope program registry symbols node.name) position node) state
      fun bound after => BoundAs program registry symbols after position node bound := by
  have htracks : Tracks (programScope program registry symbols node.name)
      (Consistent program registry symbols []) (fun _ => True) (Known program) :=
    tracks_programScope hsymbols node.name
  unfold bindNode
  cases node with
  | config name type default secret =>
    refine Ensures.bind (ensures_bindOption htracks (fun _ => trivial) (configTy type) default)
      fun bound after _ h => ?_
    exact .pure (.config h.1 h.2)
  | resource name token properties options =>
    refine (ensures_bindResource htracks (fun _ => trivial) token properties options).bind
      fun body after _ h => ?_
    obtain ⟨bound, boundOptions, rfl, hshape, hsites⟩ := h
    exact .pure (.resource hshape hsites)
  | «variable» name value =>
    refine Ensures.bind (ensures_programVariable hsymbols hnode) fun bound after _ h => ?_
    exact .pure (.variable h)
  | output name value =>
    refine Ensures.bind (ensures_bindExpr htracks value fun _ _ => trivial)
      fun bound after _ h => ?_
    exact .pure (.output h)

private theorem ensures_bindNodes {subject : String} {state : State} (nodes : List (Node × Nat))
    (hnodes : ∀ entry ∈ nodes, program.nodes[entry.2]? = some entry.1) :
    Ensures (Consistent program registry symbols [])
      (bindNodes (programScope program registry symbols subject) nodes) state
      fun bound after => List.Forall₂
        (fun entry node => BoundAs program registry symbols after entry.2 entry.1 node)
        nodes bound := by
  induction nodes generalizing state with
  | nil => exact .pure .nil
  | cons entry rest ih =>
    obtain ⟨node, position⟩ := entry
    obtain ⟨hnode, hrest⟩ := List.forall_mem_cons.mp hnodes
    rw [bindNodes]
    refine Ensures.bind (ensures_bindNode hsymbols hnode) fun bound after _ hbound => ?_
    refine (ih hrest).bind fun others after' hextends h => ?_
    exact .pure (.cons (hbound.mono hextends) h)

end

/-! ## Programs -/

def symbolsOf (program : Program) : Symbols := (collectSymbols [] [] program.nodes.zipIdx).1

theorem bind_eq_run (program : Program) (registry : Schema.Registry) :
    bind program registry =
      let run := (bindNodes (programScope program registry (symbolsOf program) "")
        program.nodes.zipIdx).run { diagnostics := (collectSymbols [] [] program.nodes.zipIdx).2 }
      (⟨run.1⟩, run.2.diagnostics) := rfl

/-- The state that binding ends in: it is consistent, its diagnostics are reported, and every
declaration is bound in it. -/
structure Outcome (program : Program) (registry : Schema.Registry) (state : State) : Prop where
  consistent : Consistent program registry (symbolsOf program) [] state
  diagnostics : (bind program registry).2 = state.diagnostics
  bound : List.Forall₂
    (fun entry node => BoundAs program registry (symbolsOf program) state entry.2 entry.1 node)
    program.nodes.zipIdx (bind program registry).1.nodes

theorem exists_outcome (program : Program) (registry : Schema.Registry) :
    ∃ state, Outcome program registry state := by
  have hnodes : ∀ entry ∈ program.nodes.zipIdx, program.nodes[entry.2]? = some entry.1 :=
    fun entry hentry => List.mem_zipIdx_iff_getElem?.mp hentry
  have hstart : Consistent program registry (symbolsOf program) []
      { diagnostics := (collectSymbols [] [] program.nodes.zipIdx).2 } :=
    ⟨by simp, by simp, by simp, by simp⟩
  obtain ⟨-, hconsistent, hbound⟩ :=
    ensures_bindNodes (lookup_symbols program) program.nodes.zipIdx hnodes hstart
  exact ⟨_, hconsistent, rfl, hbound⟩

variable {expr : Bound.Expr}

namespace Outcome

variable {program : Program} {registry : Schema.Registry} {state : State}
  (outcome : Outcome program registry state)

include outcome

theorem length_eq : (bind program registry).1.nodes.length = program.nodes.length := by
  simpa using outcome.bound.length_eq.symm

variable {position : Nat} {node : Node} {bound : Bound.Node}

theorem boundAs (hnode : program.nodes[position]? = some node)
    (hbound : (bind program registry).1.nodes[position]? = some bound) :
    BoundAs program registry (symbolsOf program) state position node bound := by
  obtain ⟨-, hat⟩ := List.forall₂_iff_get.mp outcome.bound
  obtain ⟨hlt, rfl⟩ := List.getElem?_eq_some_iff.mp hnode
  obtain ⟨hlt', rfl⟩ := List.getElem?_eq_some_iff.mp hbound
  simpa using hat position (by simpa using hlt) hlt'

theorem exists_declaration (hbound : (bind program registry).1.nodes[position]? = some bound) :
    ∃ node, program.nodes[position]? = some node ∧
      BoundAs program registry (symbolsOf program) state position node bound := by
  obtain ⟨hlt, -⟩ := List.getElem?_eq_some_iff.mp hbound
  have hnode := List.getElem?_eq_getElem (outcome.length_eq ▸ hlt)
  exact ⟨_, hnode, outcome.boundAs hnode hbound⟩

theorem exists_bound (hnode : program.nodes[position]? = some node) :
    ∃ bound, (bind program registry).1.nodes[position]? = some bound ∧
      BoundAs program registry (symbolsOf program) state position node bound := by
  obtain ⟨hlt, -⟩ := List.getElem?_eq_some_iff.mp hnode
  have hbound := List.getElem?_eq_getElem (outcome.length_eq ▸ hlt)
  exact ⟨_, hbound, outcome.boundAs hnode hbound⟩

theorem exists_site (hexpr : expr ∈ (bind program registry).1.expressions) :
    ∃ position : Nat, ∃ node bound site, program.nodes[position]? = some node ∧
      (bind program registry).1.nodes[position]? = some bound ∧ site ∈ nodeSites node bound ∧
      site.bound = expr := by
  obtain ⟨bound, hmem, hexpr⟩ := List.mem_flatMap.mp hexpr
  obtain ⟨position, hat⟩ := List.mem_iff_getElem?.mp hmem
  obtain ⟨node, hnode, hbound⟩ := outcome.exists_declaration hat
  rw [← bound.map_snd_slots] at hexpr
  obtain ⟨⟨slot, expr⟩, hslot, rfl⟩ := List.mem_map.mp hexpr
  obtain ⟨item, hsite⟩ := hbound.exists_site hslot
  exact ⟨position, node, bound, _, hnode, hat, hsite, rfl⟩

theorem elaborates (hnode : program.nodes[position]? = some node)
    (hbound : (bind program registry).1.nodes[position]? = some bound)
    (hsite : site ∈ nodeSites node bound) :
    site.slot.bare = true ∧ Elaborates registry (symbolsOf program) (Known program state)
      (state.Reported node.name) site.slot site.declared site.bound :=
  have hboundAs := outcome.boundAs hnode hbound
  ⟨hboundAs.bare_slot hsite, hboundAs.binds outcome.consistent hnode hsite⟩

theorem sound (hexpr : expr ∈ (bind program registry).1.expressions) :
    Sound registry (symbolsOf program) (fun _ => True) (Known program) state expr := by
  obtain ⟨position, node, bound, site, hnode, hbound, hsite, rfl⟩ := outcome.exists_site hexpr
  obtain ⟨hbare, helaborates⟩ := outcome.elaborates hnode hbound hsite
  exact helaborates.sound hbare fun _ _ => trivial

end Outcome

theorem source_bind (program : Program) (registry : Schema.Registry) :
    ∀ expr ∈ (bind program registry).1.expressions, expr.Source := by
  obtain ⟨state, outcome⟩ := exists_outcome program registry
  exact fun expr hexpr => (outcome.sound hexpr).source

/-! ## Accepted programs -/

/-- The type at which a bound program reads a variable: that of its value, or an open one on a
cycle. -/
def ReadAt (program : Program) (bound : Bound.Program) (position : Nat) (ty : Ty) : Prop :=
  (∃ name value, bound.nodes[position]? = some ⟨name, .variable value⟩ ∧ value.ty = ty) ∨
    (program.Cyclic position ∧ ty = .any)

section

variable {program : Program} {registry : Schema.Registry}

theorem Outcome.readAt {state : State} (outcome : Outcome program registry state) {root : String}
    {position : Nat} {value : Expr} {ty : Ty}
    (hlookup : (symbolsOf program).lookup root = some (position, .variable name value))
    (hknown : Known program state position ty) :
    ReadAt program (bind program registry).1 position ty := by
  rcases hknown with ⟨found, hdone, hty⟩ | hcyclic
  · have hdeclared := (lookup_symbols program root).symm.trans hlookup
    obtain ⟨bound, hbound, hboundAs⟩ :=
      outcome.exists_bound (Program.getElem?_of_declaration? hdeclared)
    cases hboundAs with
    | «variable» hdone' =>
      obtain rfl : found = _ := by simpa [hdone] using hdone'
      exact .inl ⟨_, _, hbound, hty⟩
  · exact .inr hcyclic

variable (hclean : hasErrors (bind program registry).2 = false)

include hclean

/-- In an accepted program every part of every expression follows the rules and has a tidy type. -/
theorem rules_bind (hexpr : expr ∈ (bind program registry).1.expressions) :
    (∀ part ∈ expr.subexprs, Rule registry (symbolsOf program) (fun _ => True)
      (ReadAt program (bind program registry).1) part) ∧
    ∀ part ∈ expr.subexprs, part.ty.tidy = true := by
  obtain ⟨state, outcome⟩ := exists_outcome program registry
  have hstate : hasErrors state.diagnostics = false := outcome.diagnostics ▸ hclean
  have hrules := (outcome.sound hexpr).rules hstate
  refine ⟨fun part hpart => ?_, tidy_of_rules (outcome.consistent.tidy_of_known hstate) hrules⟩
  exact (hrules part hpart).mono (fun _ _ _ _ _ hlookup => outcome.readAt hlookup)
    fun _ _ => trivial

theorem rules_variable {position : Nat} {value : Bound.Expr}
    (hnode : (bind program registry).1.nodes[position]? = some ⟨name, .variable value⟩) :
    ∀ part ∈ value.subexprs, Rule registry (symbolsOf program) (NamesOf program position)
      (ReadAt program (bind program registry).1) part := by
  obtain ⟨state, outcome⟩ := exists_outcome program registry
  have hstate : hasErrors state.diagnostics = false := outcome.diagnostics ▸ hclean
  obtain ⟨node, -, hboundAs⟩ := outcome.exists_declaration hnode
  cases hboundAs with
  | «variable» hdone =>
    intro part hpart
    exact ((outcome.consistent.done position value hdone).sound.rules hstate part hpart).mono
      (fun _ _ _ _ _ hlookup => outcome.readAt hlookup) fun _ hroot => hroot

end

def bucketRegistry : Schema.Registry :=
  { packages := [⟨"aws", [⟨"aws:s3:Bucket", [], []⟩], [], []⟩]
    index := [("aws:s3:Bucket", ⟨.resource, 0, 0⟩)] }

/-! ## Where bound expressions come from -/

/-- Under the name of a declaration, an expression is evaluated into a slot: one that the program
declares, or a part of one that is evaluated itself. -/
inductive Evaluates (program : Program) (bound : Bound.Program) : String → Site → Prop
  | declared {position : Nat} {node : Node} {target : Bound.Node} {site : Site} :
      program.nodes[position]? = some node → bound.nodes[position]? = some target →
      site ∈ nodeSites node target → Evaluates program bound node.name site
  | part {subject : String} {whole site : Site} : Evaluates program bound subject whole →
      site ∈ sites whole.slot whole.declared whole.bound → Evaluates program bound subject site

section

variable {program : Program} {registry : Schema.Registry} {state : State} {subject : String}
  {site : Site} (outcome : Outcome program registry state)
  (h : Evaluates program (bind program registry).1 subject site)

include outcome h

theorem Evaluates.elaborates : site.slot.bare = true ∧
    Elaborates registry (symbolsOf program) (Known program state) (state.Reported subject)
      site.slot site.declared site.bound := by
  induction h with
  | declared hnode hbound hsite => exact outcome.elaborates hnode hbound hsite
  | part _ hsite ih =>
    obtain ⟨hbare, helaborates⟩ := ih
    exact ⟨helaborates.shape.bare_slot hbare hsite, helaborates.site hsite⟩

theorem Evaluates.exists_of_mem {part : Bound.Expr} (hpart : part ∈ site.bound.subexprs) :
    ∃ inner, Evaluates program (bind program registry).1 subject inner ∧ inner.bound = part := by
  generalize hwhole : site.bound = whole at hpart
  induction whole generalizing site with
  | step whole ih =>
    rcases Bound.Expr.mem_subexprs.mp hpart with rfl | ⟨child, hchild, hpart⟩
    · exact ⟨site, h, hwhole⟩
    · subst hwhole
      obtain ⟨-, helaborates⟩ := h.elaborates outcome
      obtain ⟨inner, hinner, rfl⟩ := helaborates.shape.exists_site hchild
      exact ih inner.bound hchild (h.part hinner) rfl hpart

end

theorem exists_evaluates {program : Program} {registry : Schema.Registry} {part : Bound.Expr}
    (h : (bind program registry).1.Within part) :
    ∃ subject site, Evaluates program (bind program registry).1 subject site ∧
      site.bound = part := by
  obtain ⟨state, outcome⟩ := exists_outcome program registry
  obtain ⟨expr, hexpr, hpart⟩ := h
  obtain ⟨position, node, bound, site, hnode, hbound, hsite, rfl⟩ := outcome.exists_site hexpr
  obtain ⟨inner, hinner⟩ :=
    (Evaluates.declared hnode hbound hsite).exists_of_mem outcome hpart
  exact ⟨node.name, inner, hinner⟩

def siteRegistry : Schema.Registry :=
  { packages := [⟨"aws", [⟨"aws:s3:Site", [⟨"index", .ref "aws:s3:Page", true⟩], []⟩],
      [⟨"aws:s3:Page", [⟨"path", .string, true⟩, ⟨"tags", .array .string, false⟩]⟩], []⟩]
    index := [("aws:s3:Site", ⟨.resource, 0, 0⟩), ("aws:s3:Page", ⟨.struct, 0, 0⟩)] }

end Provision.Binding
