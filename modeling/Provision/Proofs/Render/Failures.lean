import Provision.Proofs.Names
import Provision.Proofs.Render.Frames

/-!
# Failures of renderings

Rendering fails only where the target language cannot say something, or at a parameter that no
enclosing apply names. What is said then is what is said of some value where it stands. Whether a
declaration fails has nothing to do with what was written before it.
-/

namespace Provision.Render

namespace Rendering

variable {α β γ : Type}

def failure? (rendering : Rendering α) : Option Diagnostic :=
  match rendering.result with
  | .ok _ => none
  | .error diagnostic => some diagnostic

@[simp] theorem failure?_pure (value : α) : (pure value : Rendering α).failure? = none := rfl

@[simp] theorem failure?_need (needs : List Need) : (need needs).failure? = none := rfl

theorem failure?_bind_ok {first : Rendering α} {value : α} (h : first.result = .ok value)
    (next : α → Rendering β) : (first >>= next).failure? = (next value).failure? := by
  simp [failure?, bind_ok next h]

theorem failure?_bind_error {first : Rendering α} {diagnostic : Diagnostic}
    (h : first.result = .error diagnostic) (next : α → Rendering β) :
    (first >>= next).failure? = some diagnostic := by
  simp [failure?, bind_error next h]

theorem failure?_bind_congr (first : Rendering α) {next : α → Rendering β} {other : α → Rendering γ}
    (h : ∀ value, (next value).failure? = (other value).failure?) :
    (first >>= next).failure? = (first >>= other).failure? := by
  cases hresult : first.result with
  | ok value => rw [failure?_bind_ok hresult, failure?_bind_ok hresult, h]
  | error diagnostic => rw [failure?_bind_error hresult, failure?_bind_error hresult]

@[simp] theorem failure?_map (f : α → β) (rendering : Rendering α) :
    (f <$> rendering).failure? = rendering.failure? := by
  rw [map_eq_pure_bind]
  cases hresult : rendering.result with
  | ok value =>
    rw [failure?_bind_ok hresult]
    simp [failure?, hresult]
  | error diagnostic =>
    rw [failure?_bind_error hresult]
    simp [failure?, hresult]

/-- The rendering fails, if at all, with an error about an unsupported expression that says one of
some messages. -/
def FailsOnly (said : String → Prop) (rendering : Rendering α) : Prop :=
  ∀ diagnostic, rendering.failure? = some diagnostic →
    (diagnostic.severity = .error ∧ diagnostic.kind = .unsupportedExpression) ∧
      said diagnostic.message

namespace FailsOnly

variable {said : String → Prop}

theorem mono {said' : String → Prop} {rendering : Rendering α} (h : FailsOnly said rendering)
    (hsaid : ∀ message, said message → said' message) : FailsOnly said' rendering :=
  fun diagnostic hfailure => (h diagnostic hfailure).imp id (hsaid _)

theorem pure (value : α) : FailsOnly said (Pure.pure value : Rendering α) := by
  simp [FailsOnly]

theorem need (needs : List Need) : FailsOnly said (Rendering.need needs) := by
  simp [FailsOnly]

theorem unsupported {message : String} (h : said message) :
    FailsOnly said (Rendering.unsupported message : Rendering α) := by
  intro diagnostic hfailure
  obtain rfl := Option.some.inj hfailure
  exact ⟨⟨rfl, rfl⟩, h⟩

theorem bind {first : Rendering α} {next : α → Rendering β} (hfirst : FailsOnly said first)
    (hnext : ∀ value, first.result = .ok value → FailsOnly said (next value)) :
    FailsOnly said (first >>= next) := by
  intro diagnostic hfailure
  cases hresult : first.result with
  | ok value =>
    rw [failure?_bind_ok hresult] at hfailure
    exact hnext value hresult diagnostic hfailure
  | error found =>
    rw [failure?_bind_error hresult] at hfailure
    exact hfirst diagnostic (by simpa [failure?, hresult] using hfailure)

theorem map_iff (f : α → β) {rendering : Rendering α} :
    FailsOnly said (f <$> rendering) ↔ FailsOnly said rendering := by
  simp [FailsOnly]

theorem mapM {items : List α} {f : α → Rendering β} (h : ∀ item ∈ items, FailsOnly said (f item)) :
    FailsOnly said (items.mapM f) := by
  induction items with
  | nil => exact .pure []
  | cons item rest ih =>
    rw [List.mapM_cons]
    refine .bind (h item List.mem_cons_self) fun _ _ => .bind (ih ?_) fun _ _ => .pure _
    exact fun other hother => h other (List.mem_cons_of_mem _ hother)

end FailsOnly

end Rendering

open Rendering

/-! ## Messages -/

def Rendering.outsideApply (name : String) : String :=
  "`" ++ name ++ "` is used outside of its apply"

def unnamed (what token : String) : String :=
  "cannot name " ++ what ++ ": " ++ ("`" ++ token ++ "` is not a valid type token")

def clash (target : Target) (owner earlier later : String) : String :=
  "properties `" ++ earlier ++ "` and `" ++ later ++ "`" ++ owner ++ " both become `"
    ++ (dialectOf target).propertyName later ++ "` in " ++ target.name

section

variable (target : Target) (unbound : String → Prop) (slot : Ty)

inductive Complaint : Bound.Expr → String → Prop
  | misfit {value : Bound.Expr} {token : String} : slot.resolved = .object token →
      Complaint value
        ("a " ++ value.tag ++ " of type " ++ value.ty.text ++ " cannot be assigned to struct type `"
          ++ token ++ "` in " ++ target.name)
  | shapeless {entries : List Bound.Member} {ty : Ty} :
      Complaint (.object entries ty)
        ("an object construction cannot be rendered where " ++ slot.text ++ " is expected")
  | structToken {entries : List Bound.Member} {ty : Ty} {token : String} :
      (construction slot ty).result = .ok (.struct token) →
      Complaint (.object entries ty) (unnamed "struct type" token)
  | structNames {entries : List Bound.Member} {ty : Ty} {token earlier later : String} :
      (construction slot ty).result = .ok (.struct token) →
      earlier ∈ entries.map (·.key) → later ∈ entries.map (·.key) →
      Complaint (.object entries ty)
        (clash target (" of `" ++ token ++ "`") earlier later)
  | functionToken {token : String} {args : List Bound.Member} {field : Option String}
      {reads : Bool} {ty : Ty} :
      Complaint (.invoke token args field reads ty) (unnamed "function" token)
  | functionNames {token earlier later : String} {args : List Bound.Member}
      {field : Option String} {reads : Bool} {ty : Ty} :
      earlier ∈ args.map (·.key) → later ∈ args.map (·.key) →
      Complaint (.invoke token args field reads ty)
        (clash target (" of `" ++ token ++ "`") earlier later)
  | choice {condition accepted rejected : Bound.Expr} {ty : Ty} :
      Complaint (.conditional condition accepted rejected ty)
        ("conditional expressions have no " ++ target.name ++ " equivalent")
  | outside {name : String} {ty : Ty} : unbound name →
      Complaint (.placeholder name ty) (outsideApply name)

end

variable {target : Target} {unbound said : String → Prop} {message name : String}
  {keys params : List String} {env : Env} {expected : Ty}

theorem Complaint.mono {unbound' : String → Prop} {slot : Ty} {value : Bound.Expr}
    (h : Complaint target unbound slot value message)
    (hunbound : ∀ name, unbound name → unbound' name) :
    Complaint target unbound' slot value message := by
  cases h with
  | misfit hslot => exact .misfit hslot
  | shapeless => exact .shapeless
  | structToken hbuilt => exact .structToken hbuilt
  | structNames hbuilt hearlier hlater => exact .structNames hbuilt hearlier hlater
  | functionToken => exact .functionToken
  | functionNames hearlier hlater => exact .functionNames hearlier hlater
  | choice => exact .choice
  | outside hname => exact .outside (hunbound _ hname)

theorem ne_outsideApply (h : message.toList.head? ≠ some '\x60') (name : String) :
    message ≠ outsideApply name := by
  rintro rfl
  simp [outsideApply] at h

theorem unnamed_ne_outsideApply (what token name : String) :
    unnamed what token ≠ outsideApply name := by
  refine ne_outsideApply ?_ name
  delta unnamed
  simp

theorem clash_ne_outsideApply (target : Target) (owner earlier later name : String) :
    clash target owner earlier later ≠ outsideApply name := by
  refine ne_outsideApply ?_ name
  delta clash
  simp

theorem Complaint.unbound_of_eq {slot : Ty} {value : Bound.Expr}
    (h : Complaint target unbound slot value message) (hmessage : message = outsideApply name) :
    unbound name := by
  cases h with
  | @outside other _ hname =>
    have heq : other = name := by simpa [outsideApply] using hmessage
    exact heq ▸ hname
  | structToken | functionToken => exact absurd hmessage (unnamed_ne_outsideApply _ _ name)
  | structNames | functionNames => exact absurd hmessage (clash_ne_outsideApply _ _ _ _ name)
  | _ => exact absurd hmessage (ne_outsideApply (by simp) name)

/-! ## Parts -/

theorem failsOnly_tokenOrFail {what token : String} (h : said (unnamed what token)) :
    FailsOnly said (tokenOrFail what token) := by
  rw [tokenOrFail, TypeToken.parse]
  cases TypeToken.ofText? token with
  | some parsed => exact .pure _
  | none => exact .unsupported h

private theorem mem_of_nameClash {rename : String → String} {seen : List (String × String)}
    {earlier later : String} (h : nameClash rename seen keys = some (earlier, later, name)) :
    (earlier ∈ keys ∨ earlier ∈ seen.map Prod.snd) ∧ later ∈ keys ∧ name = rename later := by
  induction keys generalizing seen with
  | nil => simp [nameClash] at h
  | cons key rest ih =>
    rw [nameClash] at h
    split at h
    · next found hseen =>
      obtain ⟨rfl, rfl, rfl⟩ : found = earlier ∧ key = later ∧ rename key = name := by
        simpa using h
      obtain ⟨before, after, rfl, -⟩ := List.lookup_eq_some_iff.mp hseen
      exact ⟨.inr (by simp), List.mem_cons_self, rfl⟩
    · obtain ⟨hearlier, hlater, heq⟩ := ih h
      exact ⟨by grind, List.mem_cons_of_mem _ hlater, heq⟩

theorem failsOnly_checkNames {owner : String}
    (h : ∀ earlier ∈ keys, ∀ later ∈ keys, said (clash env.target owner earlier later)) :
    FailsOnly said (checkNames env owner keys) := by
  rw [checkNames]
  split
  · exact .pure ()
  · next hclash =>
    obtain ⟨hearlier, hlater, rfl⟩ := mem_of_nameClash hclash
    exact .unsupported (h _ (by simpa using hearlier) _ hlater)

theorem failsOnly_checkStruct (env : Env) (expected : Ty) (expr : Bound.Expr) :
    FailsOnly (Complaint env.target unbound expected expr) (checkStruct env expected expr) := by
  rw [checkStruct]
  split
  · next token hcategory =>
    split
    · exact .pure ()
    · intro diagnostic hfailure
      obtain rfl := Option.some.inj hfailure
      refine ⟨⟨rfl, rfl⟩, .misfit ?_⟩
      unfold categorize at hcategory
      split at hcategory <;> simp_all
  · exact .pure ()

theorem failsOnly_construction {ty : Ty}
    (h : said
      ("an object construction cannot be rendered where " ++ expected.text ++ " is expected")) :
    FailsOnly said (construction expected ty) := by
  rw [construction]
  split
  · exact .pure _
  · exact .pure _
  · split <;> exact .pure _
  · split <;> exact .pure _
  · exact .unsupported h

/-! ## Expressions -/

def Unbound (env : Env) (expr : Bound.Expr) (name : String) : Prop :=
  Bound.Expr.Free name expr ∧ env.parameter? name = none

theorem mem_keys_foldl_insert {pairs : List (String × String)} {bindings : Bindings} :
    name ∈ (pairs.foldl (fun bindings pair => bindings.insert pair.1 pair.2) bindings).map
      Prod.fst ↔ name ∈ pairs.map Prod.fst ∨ name ∈ bindings.map Prod.fst := by
  induction pairs generalizing bindings with
  | nil => simp
  | cons pair rest ih =>
    rw [List.foldl_cons, ih]
    by_cases hpair : name = pair.1 <;> simp [Bindings.insert, hpair]

theorem not_mem_of_lookup_ofList {texts : List String} (hlength : params.length ≤ texts.length)
    (hlookup : (Bindings.ofList (params.zip texts)).lookup name = none) : name ∉ params := by
  intro hname
  have hkey : name ∈ (Bindings.ofList (params.zip texts)).map Prod.fst :=
    mem_keys_foldl_insert.mpr (.inl (by rwa [List.map_fst_zip hlength]))
  obtain ⟨pair, hpair, rfl⟩ := List.mem_map.mp hkey
  simpa using List.lookup_eq_none_iff.mp hlookup pair hpair

theorem parameter?_bodyEnv {values : Nat}
    (h : (bodyEnv env params (env.parameterIdents params) values).parameter? name = none) :
    name ∉ params ∧ env.parameter? name = none := by
  have hscopes : ∀ single : Bool,
      (if env.dialect.applyIndents single values then env.deeper else env).scopes = env.scopes := by
    intro single
    split <;> rfl
  simp only [bodyEnv, Env.plain, Env.withInput, Env.inScope, Env.parameter?, hscopes,
    List.findSome?_cons] at h
  split at h
  · simp at h
  · next hlookup => exact ⟨not_mem_of_lookup_ofList (by simp [Env.parameterIdents]) hlookup, h⟩

/-- What is unbound in a value of an expression is unbound in the expression: in the body of an
apply it is no parameter of the apply. -/
theorem unbound_of_mem_values {whole : Bound.Expr} {value : Env × Ty × Bound.Expr}
    (hvalue : value ∈ values env expected whole) (h : Unbound value.1 value.2.2 name) :
    Unbound env whole name := by
  by_cases happly : ∃ args params body ty, whole = .apply args params body ty
  · obtain ⟨args, params, body, ty, rfl⟩ := happly
    rcases List.mem_append.mp hvalue with hvalue | hvalue
    · obtain ⟨arg, harg, rfl⟩ := List.mem_map.mp hvalue
      exact ⟨.outer harg h.1, h.2⟩
    · obtain rfl := List.mem_singleton.mp hvalue
      obtain ⟨hparam, hnone⟩ := parameter?_bodyEnv h.2
      exact ⟨.body hparam h.1, hnone⟩
  · push Not at happly
    have hpart := mem_children_of_mem_values hvalue
    rw [values_of_ne_apply happly] at hvalue
    obtain ⟨place, -, rfl⟩ := List.mem_map.mp hvalue
    obtain ⟨level, input, hinner⟩ := innerEnv_eq env expected whole
    rw [hinner] at h
    exact ⟨.outer (Bound.Expr.outer_of_ne_apply happly ▸ hpart) h.1, h.2⟩

section

variable {env : Env} {expected : Ty} {whole : Bound.Expr}

theorem failsOnly_frame :
    FailsOnly (Complaint env.target (Unbound env whole) expected whole)
      (frame env expected whole) := by
  cases whole with
  | object entries ty =>
    refine .bind (failsOnly_construction .shapeless) fun built hbuilt => ?_
    cases built with
    | struct token =>
      refine .bind (failsOnly_tokenOrFail (.structToken hbuilt)) fun _ _ => ?_
      refine .bind (failsOnly_checkNames fun _ hearlier _ hlater => ?_) fun _ _ => .pure _
      exact .structNames hbuilt hearlier hlater
    | map values => exact .pure _
  | invoke token args field reads ty =>
    refine .bind (failsOnly_tokenOrFail .functionToken) fun _ _ => ?_
    refine .bind (failsOnly_checkNames fun _ hearlier _ hlater => ?_) fun _ _ => .pure _
    exact .functionNames hearlier hlater
  | placeholder name ty =>
    rw [frame]
    split
    · exact .pure _
    · next hnone => exact .unsupported (.outside ⟨.self, hnone⟩)
  | _ => exact .pure _

theorem failsOnly_finish {finish : List String → Rendering String}
    (h : (frame env expected whole).result = .ok finish) (texts : List String) :
    FailsOnly (Complaint env.target unbound expected whole) (finish texts) := by
  cases whole with
  | template parts ty =>
    obtain rfl := Except.ok.inj h
    dsimp only [template]
    split
    · exact .pure _
    · exact .bind (.need _) fun _ _ => .pure _
  | object entries ty =>
    rcases frame_object_ok h with ⟨_, _, -, -, rfl⟩ | ⟨_, -, rfl⟩
    · exact .bind (.need _) fun _ _ => .pure _
    · exact .pure _
  | access path ty =>
    obtain rfl := Except.ok.inj h
    dsimp only [access]
    split
    · exact .bind (.need _) fun _ _ => .pure _
    · exact .pure _
  | call builtin args ty =>
    obtain rfl := Except.ok.inj h
    exact .bind (.need _) fun _ _ => .pure _
  | conditional condition accepted rejected ty =>
    obtain rfl := Except.ok.inj h
    dsimp only [conditional]
    split
    · exact .pure _
    · exact .unsupported .choice
  | invoke token args field reads ty =>
    obtain ⟨_, -, rfl⟩ := frame_invoke_ok h
    exact .bind (.need _) fun _ _ => .pure _
  | placeholder name ty =>
    rw [frame] at h
    split at h
    · obtain rfl := Except.ok.inj h
      exact .pure _
    · cases h
  | _ =>
    obtain rfl := Except.ok.inj h
    exact .pure _

end

def Said (target : Target) (unbound : String → Prop) (expected : Ty) (expr : Bound.Expr)
    (message : String) : Prop :=
  ∃ slot value, Stands expected expr slot value ∧ Complaint target unbound slot value message

theorem target_of_mem_values {env : Env} {expected : Ty} {whole : Bound.Expr}
    {value : Env × Ty × Bound.Expr} (h : value ∈ values env expected whole) :
    value.1.target = env.target := by
  by_cases happly : ∀ args params body ty, whole ≠ .apply args params body ty
  · obtain ⟨level, input, hinner⟩ := innerEnv_eq env expected whole
    rw [values_of_ne_apply happly, hinner] at h
    obtain ⟨place, -, rfl⟩ := List.mem_map.mp h
    rfl
  · push Not at happly
    obtain ⟨args, params, body, ty, rfl⟩ := happly
    rcases List.mem_append.mp h with h | h
    · obtain ⟨arg, -, rfl⟩ := List.mem_map.mp h
      rfl
    · obtain rfl := List.mem_singleton.mp h
      simp only [bodyEnv, Env.plain, Env.withInput, Env.inScope]
      split <;> rfl

private theorem failsOnly_expression (env : Env) (expected : Ty) (expr : Bound.Expr) :
    FailsOnly (Said env.target (Unbound env expr) expected expr)
      (expression env expected expr) := by
  induction expr generalizing env expected with
  | step whole ih =>
    have hself (message : String)
        (h : Complaint env.target (Unbound env whole) expected whole message) :
        Said env.target (Unbound env whole) expected whole message := ⟨_, _, .self, h⟩
    refine .bind ((failsOnly_checkStruct env expected whole).mono hself) fun _ _ => ?_
    refine .bind ?_ fun _ _ => .pure _
    rw [render_eq]
    refine .bind (failsOnly_frame.mono hself) fun finish hfinish => ?_
    refine .bind (.mapM fun value hvalue => ?_) fun texts _ =>
      (failsOnly_finish hfinish texts).mono hself
    refine (ih _ (mem_children_of_mem_values hvalue) _ _).mono fun message => ?_
    rintro ⟨slot, inner, hstands, hcomplaint⟩
    have hplace : value.2 ∈ places expected whole :=
      map_snd_values env expected whole ▸ List.mem_map_of_mem hvalue
    rw [target_of_mem_values hvalue] at hcomplaint
    exact ⟨slot, inner, .under hplace hstands, hcomplaint.mono fun _ =>
      unbound_of_mem_values hvalue⟩

end Provision.Render

/-! ## Declarations -/

namespace Provision.Assembly

open Render Rendering

def Loose (node : Bound.Node) (name : String) : Prop :=
  ∃ expr ∈ node.expressions, Bound.Expr.Free name expr

inductive NodeComplaint (target : Target) (node : Bound.Node) : String → Prop
  | token {token : String} {properties : List Bound.Member}
      {options : Bound.Options Bound.Expr} : node.body = .resource token properties options →
      NodeComplaint target node (unnamed "resource type" token)
  | names {token : String} {properties : List Bound.Member}
      {options : Bound.Options Bound.Expr} {earlier later : String} :
      node.body = .resource token properties options → earlier ∈ properties.map (·.key) →
      later ∈ properties.map (·.key) → NodeComplaint target node (clash target "" earlier later)
  | part {slot : Ty} {value : Bound.Expr} {message : String} : StandsIn node slot value →
      Complaint target (Loose node) slot value message → NodeComplaint target node message

theorem failsOnly_renderNode (env : Env) (nodes : List Bound.Node) (ident : String)
    (isFirst : Bool) (node : Bound.Node) :
    FailsOnly (NodeComplaint env.target node) (renderNode env nodes ident isFirst node) := by
  have hplace {place : Ty × Bound.Expr} (hmem : place ∈ nodePlaces node) (level : Nat)
      (input : Bool) : FailsOnly (NodeComplaint env.target node)
        (expression { env with level, input } place.1 place.2) := by
    refine (failsOnly_expression _ _ _).mono fun message => ?_
    rintro ⟨slot, value, hstands, hcomplaint⟩
    have hexpr : place.2 ∈ node.expressions :=
      map_snd_nodePlaces node ▸ List.mem_map_of_mem hmem
    exact .part ⟨place, hmem, hstands⟩ (hcomplaint.mono fun _ h => ⟨_, hexpr, h.1⟩)
  obtain ⟨name, body⟩ := node
  cases body with
  | config type valueType default secret =>
    refine .bind ?_ fun _ _ => .bind (.need _) fun _ _ => .pure _
    rw [← FailsOnly.map_iff Option.toList, ← renderAll_toList, renderAll_eq]
    exact .mapM fun value hvalue => hplace (List.mem_map_of_mem hvalue) _ _
  | resource token properties options =>
    refine .bind (failsOnly_tokenOrFail (.token rfl)) fun _ _ => ?_
    refine .bind (failsOnly_checkNames fun _ hearlier _ hlater => .names rfl hearlier hlater)
      fun _ _ => ?_
    refine .bind ?_ fun _ _ => .bind ?_ fun _ _ => .bind (.need _) fun _ _ => .pure _
    · rw [renderFields_eq, FailsOnly.map_iff]
      exact .mapM fun slot hslot => hplace (List.mem_append_left _ (List.mem_map_of_mem hslot)) _ _
    · rw [← FailsOnly.map_iff Bound.Options.values, values_renderOptions]
      exact .mapM fun place hmem => hplace (List.mem_append_right _ hmem) _ _
  | «variable» value | output value =>
    exact .bind (hplace (List.mem_singleton.mpr rfl) _ _) fun _ _ => .pure _

theorem NodeComplaint.loose_of_eq {target : Target} {node : Bound.Node} {message name : String}
    (h : NodeComplaint target node message) (hmessage : message = outsideApply name) :
    Loose node name := by
  cases h with
  | part _ hcomplaint => exact hcomplaint.unbound_of_eq hmessage
  | token => exact absurd hmessage (unnamed_ne_outsideApply _ _ name)
  | names => exact absurd hmessage (clash_ne_outsideApply _ _ _ _ name)

theorem failure?_renderNode (env : Env) (nodes : List Bound.Node) (ident : String)
    (isFirst : Bool) (node : Bound.Node) :
    (renderNode env nodes ident isFirst node).failure? =
      (renderNode env nodes ident true node).failure? := by
  obtain ⟨name, body⟩ := node
  cases body with
  | resource token properties options =>
    refine failure?_bind_congr _ fun _ => failure?_bind_congr _ fun _ => ?_
    refine failure?_bind_congr _ fun _ => failure?_bind_congr _ fun _ => ?_
    exact failure?_bind_congr _ fun _ => rfl
  | _ => rfl

end Provision.Assembly
