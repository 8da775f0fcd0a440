import Provision.Binding.Expr

/-!
# What binding reports

A run of binding only adds to its state: what was reported stays reported, and the value found for
a variable stays that value. `Ensures` says this of a computation together with what it gives, and
the lemmas here say which problems each check reports.
-/

namespace Provision.Binding

structure State.Extends (before after : State) : Prop where
  reports : before.diagnostics ⊆ after.diagnostics
  done : ∀ position value, before.progress.lookup position = some (.done value) →
    after.progress.lookup position = some (.done value)

theorem State.Extends.refl (state : State) : state.Extends state :=
  ⟨fun _ h => h, fun _ _ h => h⟩

theorem State.Extends.trans {first second third : State} (h : first.Extends second)
    (h' : second.Extends third) : first.Extends third :=
  ⟨fun _ hmem => h'.reports (h.reports hmem),
    fun position value hdone => h'.done position value (h.done position value hdone)⟩

theorem State.Extends.clean {before after : State} (h : before.Extends after)
    (hclean : hasErrors after.diagnostics = false) : hasErrors before.diagnostics = false := by
  simp only [hasErrors, List.any_eq_false] at hclean ⊢
  exact fun diagnostic hmem => hclean diagnostic (h.reports hmem)

def State.report (state : State) (diagnostic : Diagnostic) : State :=
  { state with diagnostics := state.diagnostics ++ [diagnostic] }

theorem State.extends_report (state : State) (diagnostic : Diagnostic) :
    state.Extends (state.report diagnostic) :=
  ⟨fun _ h => List.mem_append_left _ h, fun _ _ h => h⟩

def State.Reported (state : State) (subject : String) (diagnostic : Diagnostic) : Prop :=
  diagnostic.withSubject subject ∈ state.diagnostics

theorem State.Extends.reported {before after : State} (h : before.Extends after)
    (subject : String) (diagnostic : Diagnostic) (hreported : before.Reported subject diagnostic) :
    after.Reported subject diagnostic :=
  h.reports hreported

def Failing (reported : Diagnostic → Prop) : Prop :=
  ∃ diagnostic, diagnostic.isError = true ∧ reported diagnostic

theorem Failing.of_error {reported : Diagnostic → Prop} {kind : DiagnosticKind} {message : String}
    {span : Option Span} (h : reported ((Diagnostic.error kind message).withSpan span)) :
    Failing reported :=
  ⟨_, rfl, h⟩

theorem Failing.mono {reported reported' : Diagnostic → Prop}
    (hreported : ∀ diagnostic, reported diagnostic → reported' diagnostic)
    (h : Failing reported) : Failing reported' := by
  obtain ⟨diagnostic, herror, h⟩ := h
  exact ⟨diagnostic, herror, hreported diagnostic h⟩

theorem Failing.hasErrors {state : State} {subject : String}
    (h : Failing (state.Reported subject)) : hasErrors state.diagnostics = true := by
  obtain ⟨diagnostic, herror, h⟩ := h
  exact List.any_eq_true.mpr ⟨_, h, herror⟩

/-- Besides its result, a computation keeps an invariant and only extends the state. -/
def Ensures {α : Type} (inv : State → Prop) (action : Bind α) (state : State)
    (post : α → State → Prop) : Prop :=
  inv state → state.Extends (action.run state).2 ∧ inv (action.run state).2 ∧
    post (action.run state).1 (action.run state).2

namespace Ensures

variable {α β : Type} {inv : State → Prop} {state : State}

theorem pure {value : α} {post : α → State → Prop} (h : post value state) :
    Ensures inv (Pure.pure value) state post :=
  fun hinv => ⟨State.Extends.refl state, hinv, h⟩

theorem bind {action : Bind α} {next : α → Bind β} {middle : α → State → Prop}
    {post : β → State → Prop} (haction : Ensures inv action state middle)
    (hnext : ∀ value after, state.Extends after → middle value after →
      Ensures inv (next value) after post) :
    Ensures inv (action >>= next) state post := by
  intro hinv
  obtain ⟨hextends, hinv', hmiddle⟩ := haction hinv
  obtain ⟨hextends', hinv'', hpost⟩ := hnext _ _ hextends hmiddle hinv'
  exact ⟨hextends.trans hextends', hinv'', hpost⟩

theorem weaken {action : Bind α} {post post' : α → State → Prop}
    (h : Ensures inv action state post)
    (hpost : ∀ value after, post value after → post' value after) :
    Ensures inv action state post' := by
  intro hinv
  obtain ⟨hextends, hinv', hresult⟩ := h hinv
  exact ⟨hextends, hinv', hpost _ _ hresult⟩

end Ensures

/-- What binding an expression relies on: an invariant that reports keep, and what is known of a
variable once it has been read under an allowed name. -/
structure Tracks (scope : Scope) (inv : State → Prop) (allowed : String → Prop)
    (known : State → Nat → Ty → Prop) : Prop where
  report : ∀ state diagnostic, inv state → inv (state.report diagnostic)
  mono : ∀ before after position ty, before.Extends after → known before position ty →
    known after position ty
  read : ∀ root position name value state, allowed root →
    scope.symbols.lookup root = some (position, .variable name value) →
    Ensures inv (scope.variableValue position) state
      fun bound after => known after position bound.ty

def repeatedEntry (key : String) (value : Expr) : Diagnostic :=
  (Diagnostic.error .duplicateDeclaration s!"key `{key}` appears more than once").withSpan
    value.span

def repeats (seen : List String) : Members → Members
  | [] => []
  | (key, value) :: rest =>
    if seen.contains key then (key, value) :: repeats seen rest else repeats (key :: seen) rest

def repeatedProperty (name : String) (value : Expr) : Diagnostic :=
  (Diagnostic.error .duplicateDeclaration s!"property `{name}` is set more than once").withSpan
    value.span

def refusedMember (span : Option Span) (message : String) (value : Expr) : Diagnostic :=
  (Diagnostic.error .typeMismatch message).withSpan (value.span <|> span)

def missingMember (what token : String) (span : Option Span) (property : Schema.Property) :
    Diagnostic :=
  (Diagnostic.error .typeMismatch
    s!"missing required {what} `{property.name}` of `{token}`").withSpan span

def Complete (reported : Diagnostic → Prop) (what token : String) (span : Option Span)
    (keys : List String) (properties : List Schema.Property) : Prop :=
  ∀ property ∈ properties, property.required = true → property.name ∉ keys →
    reported (missingMember what token span property)

theorem Complete.mono {reported reported' : Diagnostic → Prop} {what token : String}
    {span : Option Span} {keys : List String} {properties : List Schema.Property}
    (hreported : ∀ diagnostic, reported diagnostic → reported' diagnostic)
    (h : Complete reported what token span keys properties) :
    Complete reported' what token span keys properties :=
  fun property hproperty hrequired hkey =>
    hreported _ (h property hproperty hrequired hkey)

section

variable (slot : String → Except String Ty) (again : String → Expr → Diagnostic)
  (span : Option Span) (reported : Diagnostic → Prop)

/-- Which of the declared members are bound: the first of each key that has a slot. Every other one
is reported, those whose key was seen before as `again`. -/
inductive Keeps : List String → Members → List Bound.Member → Prop
  | nil {seen : List String} : Keeps seen [] []
  | repeated {seen : List String} {key : String} {value : Expr} {rest : Members}
      {bound : List Bound.Member} : key ∈ seen → reported (again key value) →
      Keeps seen rest bound → Keeps seen ((key, value) :: rest) bound
  | refused {seen : List String} {key message : String} {value : Expr} {rest : Members}
      {bound : List Bound.Member} : key ∉ seen → slot key = .error message →
      reported (refusedMember span message value) → Keeps (key :: seen) rest bound →
        Keeps seen ((key, value) :: rest) bound
  | kept {seen : List String} {key : String} {expected : Ty} {value : Expr} {whole : Bound.Expr}
      {rest : Members} {bound : List Bound.Member} : key ∉ seen → slot key = .ok expected →
      Keeps (key :: seen) rest bound →
        Keeps seen ((key, value) :: rest) (⟨key, expected, whole⟩ :: bound)

end

namespace Keeps

variable {slot : String → Except String Ty} {again : String → Expr → Diagnostic}
  {span : Option Span} {reported reported' : Diagnostic → Prop} {seen : List String}
  {entries : Members} {bound : List Bound.Member} {member : Bound.Member}

theorem mono (hreported : ∀ diagnostic, reported diagnostic → reported' diagnostic)
    (h : Keeps slot again span reported seen entries bound) :
    Keeps slot again span reported' seen entries bound := by
  induction h with
  | nil => exact .nil
  | repeated hseen hreport _ ih => exact .repeated hseen (hreported _ hreport) ih
  | refused hseen hslot hreport _ ih => exact .refused hseen hslot (hreported _ hreport) ih
  | kept hseen hslot _ ih => exact .kept hseen hslot ih

theorem not_mem_seen (h : Keeps slot again span reported seen entries bound)
    (hmember : member ∈ bound) : member.key ∉ seen := by
  induction h with
  | nil => simp at hmember
  | repeated _ _ _ ih => exact ih hmember
  | refused _ _ _ _ ih => exact fun hmem => ih hmember (List.mem_cons_of_mem _ hmem)
  | kept hseen _ _ ih =>
    rcases List.mem_cons.mp hmember with rfl | hmember
    · exact hseen
    · exact fun hmem => ih hmember (List.mem_cons_of_mem _ hmem)

theorem nodup (h : Keeps slot again span reported seen entries bound) :
    (bound.map Bound.Slot.key).Nodup := by
  induction h with
  | nil => exact List.nodup_nil
  | repeated _ _ _ ih => exact ih
  | refused _ _ _ _ ih => exact ih
  | kept _ _ hrest ih =>
    refine List.nodup_cons.mpr ⟨fun hmem => ?_, ih⟩
    obtain ⟨member, hmember, hkey⟩ := List.mem_map.mp hmem
    exact hrest.not_mem_seen hmember (hkey ▸ List.mem_cons_self)

theorem slot_eq (h : Keeps slot again span reported seen entries bound) (hmember : member ∈ bound) :
    slot member.key = .ok member.expected := by
  induction h with
  | nil => simp at hmember
  | repeated _ _ _ ih | refused _ _ _ _ ih => exact ih hmember
  | kept _ hslot _ ih =>
    rcases List.mem_cons.mp hmember with rfl | hmember
    · exact hslot
    · exact ih hmember

theorem exists_lookup (h : Keeps slot again span reported seen entries bound)
    (hmember : member ∈ bound) : ∃ value, entries.lookup member.key = some value := by
  have hcons : ∀ {key : String} {value : Expr} {rest : Members},
      (∃ value, rest.lookup member.key = some value) →
        ∃ found, List.lookup member.key ((key, value) :: rest) = some found := by
    intro key value rest hrest
    by_cases hkey : member.key = key
    · simp [hkey]
    · simpa [List.lookup_cons, beq_eq_false_iff_ne.mpr hkey] using hrest
  induction h with
  | nil => simp at hmember
  | repeated _ _ _ ih | refused _ _ _ _ ih => exact hcons (ih hmember)
  | kept _ _ _ ih =>
    rcases List.mem_cons.mp hmember with rfl | hmember
    · simp
    · exact hcons (ih hmember)

theorem kept_or_reported (h : Keeps slot again span reported seen entries bound)
    {before after : Members} {key : String} {value : Expr}
    (hentries : entries = before ++ (key, value) :: after) :
    (key ∉ seen ∧ key ∉ before.map Prod.fst ∧ key ∈ bound.map Bound.Slot.key) ∨
      reported (again key value) ∨
        ∃ message, slot key = .error message ∧ reported (refusedMember span message value) := by
  -- The entry is the first one, where the rule itself says what became of it, or a later one, where
  -- its key was not passed as seen on the way.
  induction h generalizing before with
  | nil => simp at hentries
  | @repeated seen first _ rest bound hseen hreport _ ih =>
    cases before with
    | nil =>
      cases hentries
      exact .inr (.inl hreport)
    | cons head before =>
      cases hentries
      rcases ih rfl with ⟨hnew, hbefore, hbound⟩ | h
      · refine .inl ⟨hnew, ?_, hbound⟩
        simp only [List.map_cons, List.mem_cons, not_or]
        exact ⟨fun hkey => hnew (hkey ▸ hseen), hbefore⟩
      · exact .inr h
  | refused hseen hslot hreport _ ih =>
    cases before with
    | nil =>
      cases hentries
      exact .inr (.inr ⟨_, hslot, hreport⟩)
    | cons head before =>
      cases hentries
      rcases ih rfl with ⟨hnew, hbefore, hbound⟩ | h
      · simp only [List.mem_cons, not_or] at hnew
        exact .inl ⟨hnew.2, by simp [hnew.1, hbefore], hbound⟩
      · exact .inr h
  | kept hseen hslot _ ih =>
    cases before with
    | nil =>
      cases hentries
      exact .inl ⟨hseen, by simp, by simp⟩
    | cons head before =>
      cases hentries
      rcases ih rfl with ⟨hnew, hbefore, hbound⟩ | h
      · simp only [List.mem_cons, not_or] at hnew
        exact .inl ⟨hnew.2, by simp [hnew.1, hbefore], by simp [hbound]⟩
      · exact .inr h

end Keeps

section

variable {scope : Scope} {inv : State → Prop} {allowed : String → Prop}
  {known : State → Nat → Ty → Prop} {state : State} (tracks : Tracks scope inv allowed known)

include tracks

theorem ensures_report (diagnostic : Diagnostic) :
    Ensures inv (scope.report diagnostic) state fun _ after =>
      after.Reported scope.subject diagnostic :=
  fun hinv => ⟨state.extends_report _, tracks.report _ _ hinv,
    List.mem_append_right _ (List.mem_singleton.mpr rfl)⟩

theorem ensures_fail (kind : DiagnosticKind) (message : String) (span : Option Span) :
    Ensures inv (scope.fail kind message span) state fun _ after =>
      after.Reported scope.subject ((Diagnostic.error kind message).withSpan span) :=
  ensures_report tracks _

theorem ensures_reportRepeats (seen : List String) (entries : Members) :
    Ensures inv (reportRepeats scope seen entries) state fun _ after =>
      ∀ entry ∈ repeats seen entries,
        after.Reported scope.subject (repeatedEntry entry.1 entry.2) := by
  induction entries generalizing seen state with
  | nil => exact .pure (by simp [repeats])
  | cons entry rest ih =>
    obtain ⟨key, value⟩ := entry
    rw [reportRepeats, repeats]
    split
    · refine (ensures_fail tracks _ _ _).bind fun _ _ _ hreport hinv => ?_
      obtain ⟨hextends, hinv', hrest⟩ := ih seen hinv
      refine ⟨hextends, hinv', List.forall_mem_cons.mpr ⟨?_, hrest⟩⟩
      exact hextends.reported _ _ hreport
    · exact ih (key :: seen)

theorem ensures_reportMissing (what token : String) (span : Option Span) (keys : List String)
    (properties : List Schema.Property) :
    Ensures inv (reportMissing scope what token span keys properties) state fun _ after =>
      Complete (after.Reported scope.subject) what token span keys properties := by
  induction properties generalizing state with
  | nil => exact .pure (by simp [Complete])
  | cons property rest ih =>
    rw [reportMissing]
    split
    · refine (ensures_fail tracks _ _ _).bind fun _ _ _ hreport hinv => ?_
      obtain ⟨hextends, hinv', hrest⟩ := ih hinv
      refine ⟨hextends, hinv', List.forall_mem_cons.mpr ⟨fun _ _ => ?_, hrest⟩⟩
      exact hextends.reported _ _ hreport
    · next hpresent =>
      refine ih.weaken fun _ after hrest => List.forall_mem_cons.mpr ⟨?_, hrest⟩
      intro hrequired hkey
      simp [hrequired, hkey] at hpresent

theorem ensures_reportMissingInputs (what token : String) (span : Option Span)
    (keys : List String) (inputs : Option (List Schema.Property)) :
    Ensures inv (reportMissingInputs scope what token span keys inputs) state fun _ after =>
      Complete (after.Reported scope.subject) what token span keys (inputs.getD []) := by
  cases inputs with
  | none => exact .pure (by simp [Complete])
  | some inputs => exact ensures_reportMissing tracks what token span keys inputs

theorem ensures_reportToken (what token : String) (declared : Bool) (span : Option Span) :
    Ensures inv (reportToken scope what token declared span) state fun _ after =>
      declared = false → Failing (after.Reported scope.subject) := by
  have hunknown : ∀ after, Ensures inv
      (if (!declared) = true then scope.fail .schema s!"unknown {what} `{token}`" span
        else Pure.pure PUnit.unit) after
      fun _ final => declared = false → Failing (final.Reported scope.subject) := by
    intro after
    split
    · exact (ensures_fail tracks _ _ _).weaken fun _ _ hreport _ => .of_error hreport
    · next hdeclared => exact .pure fun hmissing => by simp [hmissing] at hdeclared
  unfold reportToken
  cases TypeToken.parse token with
  | error fault => exact (ensures_report tracks _).bind fun _ after _ _ => hunknown after
  | ok parsed => exact hunknown state

end

end Provision.Binding
