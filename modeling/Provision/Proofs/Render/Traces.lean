import Provision.Proofs.Render.Failures

/-!
# What a rendering leaves behind

Rendering goes through the values of an expression from left to right and comes to the expression
itself after them. On the way it comes to needs and to faults. At the first fault it stops, and
keeps the needs that it has come to.
-/

namespace Provision.Render

inductive Event where
  | need (need : Need)
  | fault
  deriving DecidableEq, Repr

namespace Event

def needs : List Event → List Need
  | .need wanted :: rest => wanted :: needs rest
  | .fault :: _ => []
  | [] => []

def faultIf (condition : Bool) : List Event := if condition then [.fault] else []

variable {events : List Event}

@[simp] theorem fault_mem_faultIf {condition : Bool} :
    .fault ∈ faultIf condition ↔ condition = true := by
  cases condition <;> simp [faultIf]

theorem mem_of_mem_needs {wanted : Need} (h : wanted ∈ needs events) : .need wanted ∈ events := by
  induction events with
  | nil => simp [needs] at h
  | cons event events ih =>
    cases event with
    | fault => simp [needs] at h
    | need first =>
      rcases List.mem_cons.mp h with rfl | h
      · exact List.mem_cons_self
      · exact List.mem_cons_of_mem _ (ih h)

theorem mem_needs {wanted : Need} (hfault : .fault ∉ events) (h : .need wanted ∈ events) :
    wanted ∈ needs events := by
  induction events with
  | nil => simp at h
  | cons event events ih =>
    cases event with
    | fault => simp at hfault
    | need first =>
      rw [needs, List.mem_cons]
      rcases List.mem_cons.mp h with heq | h
      · exact .inl (Event.need.inj heq)
      · exact .inr (ih (by simpa using hfault) h)

theorem needs_append_of_mem (h : .fault ∈ events) (rest : List Event) :
    needs (events ++ rest) = needs events := by
  induction events with
  | nil => simp at h
  | cons event events ih =>
    cases event with
    | fault => rfl
    | need need => simp [needs, ih (by simpa using h)]

private theorem needs_append_of_not_mem (h : .fault ∉ events) (rest : List Event) :
    needs (events ++ rest) = needs events ++ needs rest := by
  induction events with
  | nil => rfl
  | cons event events ih =>
    cases event with
    | fault => simp at h
    | need need => simp [needs, ih (by simpa using h)]

@[simp] theorem needs_map (list : List Need) : needs (list.map .need) = list := by
  induction list with
  | nil => rfl
  | cons need rest ih => simp [needs, ih]

end Event

/-! ## Renderings and events -/

namespace Rendering

variable {α β : Type}

def Succeeds (rendering : Rendering α) : Prop := rendering.failure? = none

@[simp] theorem succeeds_pure (value : α) : (pure value : Rendering α).Succeeds := rfl

@[simp] theorem succeeds_need (needs : List Need) : (need needs).Succeeds := rfl

@[simp] theorem not_succeeds_unsupported (message : String) :
    ¬ (unsupported message : Rendering α).Succeeds := by
  simp [Succeeds, failure?, unsupported, fail]

/-- The rendering comes to these events, and stops at the first fault. -/
structure Follows (events : List Event) (rendering : Rendering α) : Prop where
  succeeds : rendering.Succeeds ↔ .fault ∉ events
  needs : rendering.needs = Event.needs events

namespace Follows

variable {events rest : List Event}

theorem pure (value : α) : Follows [] (Pure.pure value : Rendering α) := ⟨by simp, rfl⟩

theorem need (needs : List Need) : Follows (needs.map .need) (Rendering.need needs) :=
  ⟨by simp, by simp [Rendering.need]⟩

theorem fail (diagnostic : Diagnostic) :
    Follows [.fault] (Rendering.fail diagnostic : Rendering α) :=
  ⟨by simp [Succeeds, failure?, Rendering.fail], rfl⟩

theorem bind {first : Rendering α} {next : α → Rendering β} (hfirst : Follows events first)
    (hnext : ∀ value, first.result = .ok value → Follows rest (next value)) :
    Follows (events ++ rest) (first >>= next) := by
  cases hresult : first.result with
  | ok value =>
    have hnone : .fault ∉ events :=
      hfirst.succeeds.mp (by simp [Succeeds, failure?, hresult])
    obtain ⟨hsucceeds, hneeds⟩ := hnext value hresult
    refine ⟨?_, ?_⟩
    · rw [Succeeds, failure?_bind_ok hresult, ← Succeeds, hsucceeds]
      simp [hnone]
    · rw [bind_ok next hresult, Event.needs_append_of_not_mem hnone, hfirst.needs, hneeds]
  | error diagnostic =>
    -- What would come next adds nothing, so `rest` must not count either.
    have hfault : .fault ∈ events := by
      by_contra hnone
      have hsucceeds := hfirst.succeeds.mpr hnone
      simp [Succeeds, failure?, hresult] at hsucceeds
    refine ⟨?_, ?_⟩
    · rw [Succeeds, failure?_bind_error hresult]
      simp [hfault]
    · rw [bind_error next hresult, Event.needs_append_of_mem hfault, hfirst.needs]

theorem bind_pure {first : Rendering α} (hfirst : Follows events first) (f : α → β) :
    Follows events (first >>= fun value => Pure.pure (f value)) := by
  simpa using hfirst.bind fun value _ => pure (f value)

theorem mapM {γ : Type} {items : List α} {sources : List γ} {f : α → Rendering β}
    {trace : γ → List Event}
    (h : List.Forall₂ (fun item source => Follows (trace source) (f item)) items sources) :
    Follows (sources.flatMap trace) (items.mapM f) := by
  induction h with
  | nil => exact pure []
  | cons hitem _ ih =>
    rw [List.mapM_cons, List.flatMap_cons]
    exact hitem.bind fun _ _ => ih.bind_pure _

theorem check {rendering : Rendering α} {condition : Bool}
    (hneeds : rendering.needs = []) (h : rendering.Succeeds ↔ condition = false) :
    Follows (Event.faultIf condition) rendering := by
  cases condition with
  | true | false => exact ⟨by simpa using h, by simp [hneeds, Event.faultIf, Event.needs]⟩

end Follows

theorem follows_map_iff {events : List Event} (f : α → β) {rendering : Rendering α} :
    Follows events (f <$> rendering) ↔ Follows events rendering := by
  have hneeds : (f <$> rendering).needs = rendering.needs := by
    rw [map_eq_pure_bind]
    cases hresult : rendering.result with
    | ok value => simp [bind_ok _ hresult]
    | error diagnostic => rw [bind_error _ hresult]
  constructor <;> rintro ⟨hsucceeds, heq⟩ <;> refine ⟨?_, ?_⟩ <;>
    simp_all [Succeeds]

end Rendering

open Rendering

/-! ## Parts -/

def Env.Scoped (env : Env) (scope : List String) : Prop :=
  ∀ name, env.parameter? name = none ↔ name ∉ scope

theorem lookup_ofList_eq_none {params texts : List String} {name : String} (h : name ∉ params) :
    (Bindings.ofList (params.zip texts)).lookup name = none := by
  refine List.lookup_eq_none_iff.mpr fun pair hpair => ?_
  have hkey : pair.1 ∈ params := by
    rcases mem_keys_foldl_insert.mp (List.mem_map_of_mem hpair) with hmem | hmem
    · obtain ⟨zipped, hzipped, hfst⟩ := List.mem_map.mp hmem
      exact hfst ▸ (List.of_mem_zip hzipped).1
    · simp at hmem
  rw [bne_iff_ne]
  rintro rfl
  exact h hkey

theorem Env.Scoped.bodyEnv {env : Env} {scope : List String} (h : env.Scoped scope)
    (params : List String) (values : Nat) :
    (bodyEnv env params (env.parameterIdents params) values).Scoped (params ++ scope) := by
  intro name
  rw [List.mem_append, not_or, ← h name]
  refine ⟨parameter?_bodyEnv, fun ⟨hparams, hnone⟩ => ?_⟩
  simp only [Render.bodyEnv, Env.plain, Env.withInput, Env.inScope, Env.parameter?,
    List.findSome?_cons, lookup_ofList_eq_none hparams]
  split <;> exact hnone

def Misfit (target : Target) (expected : Ty) (value : Bound.Expr) : Prop :=
  ∃ token, expected.resolved = .object token ∧ givesStruct (dialectOf target) token value = false

def Distinct (target : Target) (keys : List String) : Prop :=
  (keys.map (dialectOf target).propertyName).Nodup

instance (target : Target) (keys : List String) : Decidable (Distinct target keys) :=
  inferInstanceAs (Decidable (keys.map (dialectOf target).propertyName).Nodup)

private theorem nameClash_eq_none_iff {rename : String → String} {seen : List (String × String)}
    {keys : List String} : nameClash rename seen keys = none ↔
      (keys.map rename).Nodup ∧ ∀ key ∈ keys, seen.lookup (rename key) = none := by
  induction keys generalizing seen with
  | nil => simp [nameClash]
  | cons key rest ih =>
    rw [nameClash]
    split
    · next hseen =>
      refine iff_of_false (by simp) fun hall => ?_
      have hnone := hall.2 key List.mem_cons_self
      rw [hseen] at hnone
      contradiction
    · next hseen =>
      have hlater (other : String) : List.lookup (rename other) ((rename key, key) :: seen) = none ↔
          rename key ≠ rename other ∧ seen.lookup (rename other) = none := by
        rw [List.lookup_cons]
        by_cases hsame : rename other = rename key
        · simp [hsame]
        · simp [beq_eq_false_iff_ne.mpr hsame, Ne.symm hsame]
      simp only [ih, hlater, List.map_cons, List.nodup_cons, List.mem_map, List.forall_mem_cons,
        hseen, true_and]
      grind

section

variable (env : Env)

theorem succeeds_checkNames (owner : String) (keys : List String) :
    (checkNames env owner keys).Succeeds ↔ (keys.map env.dialect.propertyName).Nodup := by
  have hclash : nameClash env.dialect.propertyName [] keys = none ↔
      (keys.map env.dialect.propertyName).Nodup := by
    simp [nameClash_eq_none_iff]
  rw [checkNames, ← hclash]
  split
  · next hnone => simp [hnone]
  · next hsome => simp [hsome]

private theorem succeeds_tokenOrFail (what token : String) :
    (tokenOrFail what token).Succeeds ↔ (TypeToken.ofText? token).isSome = true := by
  rw [tokenOrFail, TypeToken.parse]
  cases TypeToken.ofText? token <;> simp

theorem succeeds_conditional (condition accepted rejected : String) :
    (conditional env condition accepted rejected).Succeeds ↔ env.target ≠ .go := by
  rw [conditional, Env.dialect]
  cases env.target <;>
    simp [dialectOf, Python.dialect, TypeScript.dialect, Go.dialect, CSharp.dialect]

end

theorem succeeds_checkStruct (env : Env) (expected : Ty) (expr : Bound.Expr) :
    (checkStruct env expected expr).Succeeds ↔ ¬ Misfit env.target expected expr := by
  have hcategory : ∀ token, categorize expected = .struct token ↔
      expected.resolved = .object token := by
    intro token
    unfold categorize
    split <;> simp_all
  rw [checkStruct]
  split
  · next token hstruct =>
    have hexpected := (hcategory token).mp hstruct
    have hmisfit : Misfit env.target expected expr ↔
        givesStruct env.dialect token expr = false := by
      simp [Misfit, hexpected, Env.dialect]
    rw [hmisfit]
    split
    · next hgives => simp [hgives]
    · next hgives => simpa [Succeeds, failure?, fail] using hgives
  · next hother =>
    refine iff_of_true (succeeds_pure _) ?_
    rintro ⟨token, hexpected, -⟩
    exact hother token ((hcategory token).mpr hexpected)

theorem needs_checkStruct (env : Env) (expected : Ty) (expr : Bound.Expr) :
    (checkStruct env expected expr).needs = [] := by
  rw [checkStruct]
  split
  · split <;> rfl
  · rfl

theorem needs_construction (expected ty : Ty) : (construction expected ty).needs = [] := by
  rw [construction]
  split <;> first | rfl | (split <;> rfl)

def nameChecks (target : Target) (token : String) (keys : List String) : List Event :=
  Event.faultIf (TypeToken.ofText? token).isNone ++ Event.faultIf (!decide (Distinct target keys))

theorem follows_named {env : Env} {what token owner : String} {keys : List String} {α : Type}
    {rest : List Event} {next : TypeToken → Rendering α}
    (hnext : ∀ parsed, TypeToken.ofText? token = some parsed → Follows rest (next parsed)) :
    Follows (nameChecks env.target token keys ++ rest)
      (do
        let parsed ← tokenOrFail what token
        checkNames env owner keys
        next parsed) := by
  have htoken : Follows (Event.faultIf (TypeToken.ofText? token).isNone)
      (tokenOrFail what token) := by
    refine .check ?_ ?_
    · rw [tokenOrFail]
      split <;> rfl
    · rw [succeeds_tokenOrFail]
      simp
  have hnames : Follows (Event.faultIf (!decide (Distinct env.target keys)))
      (checkNames env owner keys) := by
    refine .check ?_ ?_
    · rw [checkNames]
      split <;> rfl
    · refine (succeeds_checkNames env owner keys).trans ?_
      rw [Bool.not_eq_false', decide_eq_true_eq]
      rfl
  simp only [nameChecks, List.append_assoc]
  refine htoken.bind fun parsed hparsed => hnames.bind fun _ _ => ?_
  exact hnext parsed (ofText?_of_tokenOrFail hparsed)

def Piece.isCode : Piece → Bool
  | .text _ => false
  | .code _ => true

theorem any_isCode_pieces {parts : List (Part Bound.Expr)} {texts : List String}
    (h : texts.length = (parts.filterMap Part.value?).length) :
    (pieces parts texts).any Piece.isCode = !(parts.filterMap Part.value?).isEmpty := by
  induction parts generalizing texts with
  | nil => simp [pieces]
  | cons part rest ih =>
    cases part with
    | text value => simpa [pieces, Piece.isCode, List.filterMap_cons] using ih h
    | expr value =>
      cases texts with
      | nil => simp at h
      | cons text texts => simp [pieces, Piece.isCode]

theorem template_of_code (env : Env) {pieces : List Piece} (h : pieces.any Piece.isCode = true) :
    template env pieces = do
      Rendering.need env.dialect.templateNeeds
      return env.dialect.template env.layout pieces := by
  rw [template, if_neg]
  intro hlength
  obtain ⟨piece, hpiece, hisCode⟩ := List.any_eq_true.mp h
  have hsome := List.filterMap_length_eq_length.mp hlength piece hpiece
  cases piece with
  | text value => simp [Piece.isCode] at hisCode
  | code value => simp at hsome

theorem follows_template (env : Env) (pieces : List Piece) :
    Follows ((if pieces.any Piece.isCode then env.dialect.templateNeeds else []).map .need)
      (template env pieces) := by
  cases hcode : pieces.any Piece.isCode with
  | false =>
    rw [if_neg Bool.false_ne_true, template, if_pos]
    · exact .pure _
    refine List.filterMap_length_eq_length.mpr fun piece hpiece => ?_
    cases piece with
    | text value => rfl
    | code value => exact absurd rfl (List.any_eq_false.mp hcode _ hpiece)
  | true =>
    rw [if_pos rfl, template_of_code env hcode]
    exact (Follows.need _).bind_pure _

/-! ## Expressions -/

def isMisfit (target : Target) (expected : Ty) (value : Bound.Expr) : Bool :=
  match expected.resolved with
  | .object token => !givesStruct (dialectOf target) token value
  | _ => false

theorem isMisfit_eq_false_iff {target : Target} {expected : Ty} {value : Bound.Expr} :
    isMisfit target expected value = false ↔ ¬ Misfit target expected value := by
  rw [isMisfit, Misfit]
  split
  · next token hexpected => simp [hexpected]
  · next hother => simpa using fun token hexpected => absurd hexpected (hother token)

def scopedPlaces (scope : List String) (expected : Ty) :
    Bound.Expr → List (List String × Ty × Bound.Expr)
  | .apply args params body _ =>
    (args.map (.any, ·)).map (scope, ·) ++ [(params ++ scope, .any, body)]
  | whole => (places expected whole).map (scope, ·)

theorem scopedPlaces_of_ne_apply {whole : Bound.Expr}
    (h : ∀ args params body ty, whole ≠ .apply args params body ty) (scope : List String)
    (expected : Ty) :
    scopedPlaces scope expected whole = (places expected whole).map (scope, ·) := by
  cases whole with
  | apply args params body ty => exact absurd rfl (h args params body ty)
  | _ => rfl

theorem map_snd_scopedPlaces (scope : List String) (expected : Ty) (whole : Bound.Expr) :
    (scopedPlaces scope expected whole).map Prod.snd = places expected whole := by
  cases whole <;> simp [scopedPlaces, places, Function.comp_def]

theorem mem_children_of_mem_scopedPlaces {scope : List String} {expected : Ty}
    {whole : Bound.Expr} {place : List String × Ty × Bound.Expr}
    (h : place ∈ scopedPlaces scope expected whole) : place.2.2 ∈ whole.children := by
  have hplace : place.2 ∈ places expected whole :=
    map_snd_scopedPlaces scope expected whole ▸ List.mem_map_of_mem h
  exact mem_children_of_mem_places hplace

def checks (target : Target) (scope : List String) (expected : Ty) : Bound.Expr → List Event
  | .object entries ty =>
    match (construction expected ty).result with
    | .ok (.struct token) => nameChecks target token (entries.map (·.key))
    | .ok (.map _) => []
    | .error _ => [.fault]
  | .invoke token args _ _ _ => nameChecks target token (args.map (·.key))
  | .placeholder name _ => Event.faultIf (!scope.contains name)
  | _ => []

def ownNeeds (target : Target) (expected : Ty) : Bound.Expr → List Need
  | .template parts _ =>
    if !(parts.filterMap Part.value?).isEmpty then (dialectOf target).templateNeeds else []
  | .object _ ty =>
    match (construction expected ty).result with
    | .ok (.struct token) => (TypeToken.ofText? token).toList.map .provider
    | _ => []
  | .invoke token _ _ _ _ => (TypeToken.ofText? token).toList.map .provider
  | .access path _ =>
    match path.kind with
    | .input input => (dialectOf target).inputNeeds input
    | _ => []
  | .call builtin _ _ => (dialectOf target).callNeeds builtin
  | _ => []

def trailing (target : Target) (expected : Ty) : Bound.Expr → List Event
  | .conditional .. => Event.faultIf (target == .go)
  | whole => (ownNeeds target expected whole).map .need

section

variable {env : Env} {expected : Ty} {scope : List String} {whole : Bound.Expr}

theorem scoped_values (hscope : env.Scoped scope) :
    List.Forall₂ (fun value place => value ∈ values env expected whole ∧ value.2 = place.2 ∧
        value.1.target = env.target ∧ value.1.Scoped place.1)
      (values env expected whole) (scopedPlaces scope expected whole) := by
  by_cases happly : ∀ args params body ty, whole ≠ .apply args params body ty
  · obtain ⟨level, input, hinner⟩ := innerEnv_eq env expected whole
    rw [values_of_ne_apply happly, scopedPlaces_of_ne_apply happly, List.forall₂_map_left_iff,
      List.forall₂_map_right_iff, List.forall₂_same, hinner]
    exact fun place hplace => ⟨List.mem_map_of_mem hplace, rfl, rfl, hscope⟩
  -- The body of an apply is rendered where its parameters are in scope, the arguments are not.
  · push Not at happly
    obtain ⟨args, params, body, ty, rfl⟩ := happly
    have hbody : (bodyEnv env params (env.parameterIdents params) args.length, .any, body) ∈
        values env expected (.apply args params body ty) := by simp [values]
    refine List.rel_append ?_ (.cons ⟨hbody, rfl, target_of_mem_values hbody,
      hscope.bodyEnv params _⟩ .nil)
    rw [List.map_map, List.forall₂_map_left_iff, List.forall₂_map_right_iff, List.forall₂_same]
    exact fun arg harg => ⟨List.mem_append_left _ (List.mem_map_of_mem harg), rfl, rfl, hscope⟩

theorem follows_frame (hscope : env.Scoped scope) :
    Follows (checks env.target scope expected whole) (frame env expected whole) := by
  cases whole with
  | object entries ty =>
    have hneeds := needs_construction expected ty
    rw [frame, checks]
    cases hbuilt : (construction expected ty).result with
    | error diagnostic =>
      rw [bind_error _ hbuilt]
      exact ⟨by simp [Succeeds, failure?], hneeds⟩
    | ok built =>
      rw [bind_ok _ hbuilt, hneeds, List.nil_append]
      cases built with
      | struct token =>
        dsimp only
        rw [← List.append_nil (nameChecks env.target token _)]
        exact follows_named fun _ _ => .pure _
      | map values => exact .pure _
  | invoke token args field reads ty =>
    rw [frame, checks, ← List.append_nil (nameChecks env.target token _)]
    exact follows_named fun _ _ => .pure _
  | placeholder name ty =>
    rw [frame, checks]
    cases hparameter : env.parameter? name with
    | some text =>
      have hmem : name ∈ scope := by
        by_contra hnone
        simp [(hscope name).mpr hnone] at hparameter
      simpa [Event.faultIf, hmem] using Follows.pure _
    | none =>
      have hnone := (hscope name).mp hparameter
      simpa [Event.faultIf, hnone, Rendering.unsupported] using Follows.fail _
  | _ => exact .pure _

theorem follows_finish {finish : List String → Rendering String}
    (h : (frame env expected whole).result = .ok finish) {texts : List String}
    (hlength : texts.length = (values env expected whole).length) :
    Follows (trailing env.target expected whole) (finish texts) := by
  cases whole with
  | template parts ty =>
    obtain rfl := Except.ok.inj h
    have hparts : texts.length = (parts.filterMap Part.value?).length :=
      hlength.trans (by simp [values, places])
    simp only [trailing, ownNeeds, ← any_isCode_pieces hparts]
    exact follows_template env _
  | object entries ty =>
    rcases frame_object_ok h with ⟨token, parsed, hbuilt, hparsed, rfl⟩ | ⟨values, hbuilt, rfl⟩
    · simp only [trailing, ownNeeds, hbuilt, hparsed]
      exact (Follows.need _).bind_pure _
    · simp only [trailing, ownNeeds, hbuilt]
      exact .pure _
  | access path ty =>
    obtain rfl := Except.ok.inj h
    simp only [trailing, ownNeeds, access]
    cases path.kind with
    | input input => exact (Follows.need _).bind_pure _
    | _ => exact .pure _
  | call builtin args ty =>
    obtain rfl := Except.ok.inj h
    exact (Follows.need _).bind_pure _
  | conditional condition accepted rejected ty =>
    obtain rfl := Except.ok.inj h
    refine .check ?_ ?_
    · dsimp only [conditional]
      split <;> rfl
    · rw [succeeds_conditional]
      simp
  | invoke token args field reads ty =>
    obtain ⟨parsed, hparsed, rfl⟩ := frame_invoke_ok h
    simp only [trailing, ownNeeds, hparsed]
    exact (Follows.need _).bind_pure _
  | placeholder name ty =>
    rw [frame] at h
    split at h
    · obtain rfl := Except.ok.inj h
      exact .pure _
    · cases h
  | _ =>
    obtain rfl := Except.ok.inj h
    exact .pure _

end

def events (target : Target) (scope : List String) (expected : Ty) (whole : Bound.Expr) :
    List Event :=
  Event.faultIf (isMisfit target expected whole) ++ (checks target scope expected whole ++
    (scopedPlaces scope expected whole).attach.flatMap (fun place =>
      events target place.1.1 place.1.2.1 place.1.2.2) ++ trailing target expected whole)
termination_by sizeOf whole
decreasing_by exact Bound.Expr.sizeOf_child (mem_children_of_mem_scopedPlaces place.2)

theorem events_eq (target : Target) (scope : List String) (expected : Ty) (whole : Bound.Expr) :
    events target scope expected whole =
      Event.faultIf (isMisfit target expected whole) ++ (checks target scope expected whole ++
        (scopedPlaces scope expected whole).flatMap (fun place =>
          events target place.1 place.2.1 place.2.2) ++ trailing target expected whole) := by
  rw [events, List.flatMap_subtype (g := fun place => events target place.1 place.2.1 place.2.2)
    (fun _ _ => rfl), List.unattach_attach]

theorem follows_expression {env : Env} {expected : Ty} {expr : Bound.Expr} {scope : List String}
    (hscope : env.Scoped scope) :
    Follows (events env.target scope expected expr) (expression env expected expr) := by
  -- Values are rendered at other levels and in deeper scopes than what they stand in.
  induction expr generalizing env expected scope with
  | step whole ih =>
    rw [events_eq]
    refine .bind (.check (needs_checkStruct env expected whole) ?_) fun _ _ => .bind_pure ?_ _
    · rw [succeeds_checkStruct, isMisfit_eq_false_iff]
    rw [render_eq, List.append_assoc]
    refine (follows_frame hscope).bind fun finish hfinish => ?_
    refine .bind (.mapM ((scoped_values hscope).imp ?_)) fun texts htexts => ?_
    · rintro ⟨inner, slot, part⟩ ⟨scope', place⟩ ⟨hvalue, rfl, htarget, hinner⟩
      exact htarget ▸ ih _ (mem_children_of_mem_values hvalue) hinner
    · exact follows_finish hfinish (forall₂_of_mapM htexts).length_eq.symm

end Provision.Render

/-! ## Declarations -/

namespace Provision.Assembly

open Render Rendering

def nodeChecks (target : Target) (node : Bound.Node) : List Event :=
  match node.body with
  | .resource token properties _ => nameChecks target token (properties.map (·.key))
  | _ => []

def nodeNeeds (target : Target) (node : Bound.Node) : List Need :=
  match node.body with
  | .config type _ _ _ => (dialectOf target).configNeeds type
  | .resource token _ _ => (TypeToken.ofText? token).toList.map .provider
  | _ => []

def nodeEvents (target : Target) (node : Bound.Node) : List Event :=
  nodeChecks target node
    ++ (nodePlaces node).flatMap (fun place => events target [] place.1 place.2)
    ++ (nodeNeeds target node).map .need

theorem follows_renderNode {env : Env} (hscope : env.Scoped []) (nodes : List Bound.Node)
    (ident : String) (isFirst : Bool) (node : Bound.Node) :
    Follows (nodeEvents env.target node) (renderNode env nodes ident isFirst node) := by
  have hexpression (level : Nat) (input : Bool) (expected : Ty) (expr : Bound.Expr) :
      Follows (events env.target [] expected expr)
        (expression { env with level, input } expected expr) := by
    have hscope' : ({ env with level, input } : Env).Scoped [] := hscope
    exact follows_expression hscope'
  obtain ⟨name, body⟩ := node
  simp only [nodeEvents, nodeChecks, nodePlaces, nodeNeeds]
  cases body with
  | config type valueType default secret =>
    refine .bind ?_ fun _ _ => (Follows.need _).bind_pure _
    rw [← follows_map_iff Option.toList, ← renderAll_toList, renderAll_eq, List.flatMap_map]
    exact .mapM (List.forall₂_same.mpr fun value _ => hexpression _ _ _ _)
  | resource token properties options =>
    rw [List.append_assoc, List.flatMap_append, List.append_assoc, List.flatMap_map]
    refine follows_named fun parsed hparsed => .bind ?_ fun _ _ => ?_
    · rw [renderFields_eq]
      rw [follows_map_iff]
      exact .mapM (List.forall₂_same.mpr fun slot _ => hexpression _ _ _ _)
    refine .bind ?_ fun _ _ => ?_
    · rw [← follows_map_iff Bound.Options.values, values_renderOptions]
      exact .mapM (List.forall₂_same.mpr fun place _ => hexpression _ _ _ _)
    dsimp only
    rw [hparsed]
    exact (Follows.need _).bind_pure _
  | «variable» value | output value =>
    simp only [List.nil_append, List.map_nil, List.append_nil, List.flatMap_cons,
      List.flatMap_nil]
    exact .bind_pure (hexpression _ _ _ _) _

end Provision.Assembly
