import Provision.Proofs.Render.Places
import Provision.Proofs.Render.Verbatim

/-!
# Spots

A spot is a value together with all that its text depends on. Rendering starts at the values of a
declaration and goes from each spot to those of the values in it. The text of a spot stands within
the text of every spot on the way to it, and within the statement of the declaration. So a
declaration that is read anywhere in a Go program is named there.
-/

namespace Provision.Render

open Rendering
open Text (Within)

namespace Rendering

variable {α β : Type}

theorem result_map_eq_ok {f : α → β} {rendering : Rendering α} {final : β} :
    (f <$> rendering).result = .ok final ↔
      ∃ value, rendering.result = .ok value ∧ f value = final := by
  rw [map_eq_pure_bind, result_bind_eq_ok]
  simp

theorem exists_of_mapM {f : α → Rendering β} {items : List α} {values : List β}
    (h : (items.mapM f).result = .ok values) {item : α} (hitem : item ∈ items) :
    ∃ value ∈ values, (f item).result = .ok value := by
  obtain ⟨position, hposition, rfl⟩ := List.mem_iff_getElem.mp hitem
  have hall := forall₂_of_mapM h
  have hlt : position < values.length := hall.length_eq ▸ hposition
  exact ⟨values[position], List.getElem_mem hlt, hall.get hposition hlt⟩

end Rendering

/-! ## Callbacks -/

/-- The callback that an apply is written with: the names and the identifiers of its parameters, and
the number of values that it is called with. -/
structure Callback where
  params : List String
  idents : List String
  values : Nat
  deriving DecidableEq, Repr

namespace Callback

def single (callback : Callback) : Bool := callback.values == 1 && callback.idents.length == 1

def texts (target : Target) (callback : Callback) : List String :=
  callback.idents.map ((dialectOf target).applyBinding callback.single)

def bindings (target : Target) (callback : Callback) : Bindings :=
  .ofList (callback.params.zip (callback.texts target))

def ofApply (env : Env) (args : List Bound.Expr) (params : List String) : Callback :=
  ⟨params, env.parameterIdents params, args.length⟩

end Callback

/-! ## Spots -/

structure Spot where
  env : Env
  callbacks : List Callback
  expected : Ty
  value : Bound.Expr

namespace Spot

def rendering (spot : Spot) : Rendering String := expression spot.env spot.expected spot.value

def moved (spot : Spot) (env : Env) (place : Ty × Bound.Expr) : Spot :=
  ⟨env, spot.callbacks, place.1, place.2⟩

def body (spot : Spot) (args : List Bound.Expr) (params : List String) (value : Bound.Expr) :
    Spot :=
  ⟨bodyEnv spot.env params (spot.env.parameterIdents params) args.length,
    .ofApply spot.env args params :: spot.callbacks, .any, value⟩

inductive Calls (spot : Spot) : Spot → Prop
  | argument {args : List Bound.Expr} {params : List String} {body : Bound.Expr} {ty : Ty}
      {arg : Bound.Expr} : spot.value = .apply args params body ty → arg ∈ args →
        Calls spot (spot.moved spot.env.plain (.any, arg))
  | body {args : List Bound.Expr} {params : List String} {body : Bound.Expr} {ty : Ty} :
      spot.value = .apply args params body ty → Calls spot (spot.body args params body)
  | part {place : Ty × Bound.Expr} :
      (∀ args params body ty, spot.value ≠ .apply args params body ty) →
      place ∈ places spot.expected spot.value →
        Calls spot (spot.moved (innerEnv spot.env spot.expected spot.value) place)

inductive Reaches : Spot → Spot → Prop
  | self {spot : Spot} : Reaches spot spot
  | call {spot call other : Spot} : spot.Calls call → Reaches call other → Reaches spot other

/-- Whether the arguments of an apply have a parameter each. It makes no difference in Go. -/
def Paired (spot : Spot) : Prop :=
  ∀ args params body ty, spot.value = .apply args params body ty →
    spot.env.target = .go ∨ args.length ≤ params.length

end Spot

theorem bodyEnv_eq (env : Env) (args : List Bound.Expr) (params : List String) :
    ∃ level, bodyEnv env params (env.parameterIdents params) args.length =
      { env with
        level, input := false
        scopes := (Callback.ofApply env args params).bindings env.target :: env.scopes } := by
  simp only [bodyEnv, Env.plain, Env.withInput, Env.inScope]
  split <;> exact ⟨_, rfl⟩

theorem Spot.exists_call {spot : Spot} {place : Ty × Bound.Expr}
    (h : place ∈ places spot.expected spot.value) :
    ∃ call, spot.Calls call ∧ call.expected = place.1 ∧ call.value = place.2 := by
  by_cases happly : ∃ args params body ty, spot.value = .apply args params body ty
  · obtain ⟨args, params, body, ty, hvalue⟩ := happly
    rw [hvalue] at h
    rcases List.mem_append.mp h with h | hbody
    · obtain ⟨arg, harg, rfl⟩ := List.mem_map.mp h
      exact ⟨_, .argument hvalue harg, rfl, rfl⟩
    · obtain rfl := List.mem_singleton.mp hbody
      exact ⟨_, .body hvalue, rfl, rfl⟩
  · push Not at happly
    exact ⟨_, .part happly h, rfl, rfl⟩

theorem Spot.Calls.env_eq {spot call : Spot} (h : spot.Calls call) :
    ∃ level input scopes, call.env = { spot.env with level, input, scopes } := by
  cases h with
  | argument => exact ⟨_, _, _, rfl⟩
  | @body args params =>
    obtain ⟨_, hbody⟩ := bodyEnv_eq spot.env args params
    exact ⟨_, _, _, hbody⟩
  | part =>
    obtain ⟨_, _, hinner⟩ := innerEnv_eq spot.env spot.expected spot.value
    exact ⟨_, _, _, hinner⟩

theorem Stands.exists_reaches {spot : Spot} {slot : Ty} {value : Bound.Expr}
    (h : Stands spot.expected spot.value slot value) :
    ∃ other, spot.Reaches other ∧ other.expected = slot ∧ other.value = value := by
  generalize hexpected : spot.expected = expected at h
  generalize hwhole : spot.value = whole at h
  induction h generalizing spot with
  | self => exact ⟨spot, .self, hexpected, hwhole⟩
  | under hplace _ ih =>
    obtain ⟨call, hcall, hinner, hpart⟩ := Spot.exists_call (hexpected ▸ hwhole ▸ hplace)
    obtain ⟨other, hreaches, hother⟩ := ih hinner hpart
    exact ⟨other, .call hcall hreaches, hother⟩

/-! ## Texts -/

section

variable {env : Env} {expected inner : Ty} {part : Bound.Expr} {text written : String}
  {texts : List String}

theorem text_of_code {pieces : List Piece} (hpiece : .code written ∈ pieces)
    (h : (template env pieces).result = .ok text) :
    text = env.dialect.template env.layout pieces := by
  rw [template_of_code env (List.any_eq_true.mpr ⟨_, hpiece, rfl⟩)] at h
  obtain ⟨-, -, heq⟩ := result_bind_eq_ok.mp h
  exact (Except.ok.inj heq).symm

theorem within_parenthesize (expr : Bound.Expr) (text : String) :
    Within text (parenthesize expr text) := by
  rw [parenthesize]
  split
  · exact .between _ _ _
  · exact .refl text

private theorem code_mem_pieces {parts : List (Part Bound.Expr)}
    (hlength : texts.length = (parts.filterMap Part.value?).length) (h : written ∈ texts) :
    .code written ∈ pieces parts texts := by
  induction parts generalizing texts with
  | nil => simp_all
  | cons source rest ih =>
    cases source with
    | text value => exact List.mem_cons_of_mem _ (ih hlength h)
    | expr value =>
      cases texts with
      | nil => simp at h
      | cons first texts =>
        rcases List.mem_cons.mp h with rfl | h
        · exact List.mem_cons_self
        · exact List.mem_cons_of_mem _ (ih (Nat.succ.inj hlength) h)

theorem exists_mem_members (name : String → String) {slots : List Bound.Member}
    (hlength : texts.length = slots.length) (h : written ∈ texts) :
    ∃ key, (key, written) ∈ members name slots texts := by
  obtain ⟨position, hposition, rfl⟩ := List.mem_iff_getElem.mp h
  have hslot : position < slots.length := hlength ▸ hposition
  refine ⟨name slots[position].key, List.mem_iff_getElem.mpr ⟨position, ?_, ?_⟩⟩
  · simp [members, hposition, hslot]
  · simp [members]

private theorem within_conditional {condition accepted rejected : String}
    (h : (conditional env condition accepted rejected).result = .ok text) :
    Within condition text ∧ Within accepted text ∧ Within rejected text := by
  simp only [conditional] at h
  split at h
  · next htext =>
    obtain rfl : _ = text := Except.ok.inj h
    exact (verbatim_dialectOf env.target).conditional htext
  · simp [unsupported, fail] at h

theorem within_apply {args : List Bound.Expr} {params : List String} (body : Bound.Expr)
    (hlength : texts.length = args.length + 1)
    (hpaired : env.target = .go ∨ args.length ≤ params.length) (hwritten : written ∈ texts) :
    Within written (env.dialect.apply env.layout ⟨sources env.dialect args texts,
      env.parameterIdents params, argument "" texts args.length, body.ty.withoutEventual⟩) := by
  have hverbatim : env.dialect.Verbatim := verbatim_dialectOf env.target
  -- The last text is that of the body, and the others are those of the arguments.
  obtain ⟨position, hposition, rfl⟩ := List.mem_iff_getElem.mp hwritten
  by_cases hlast : position = args.length
  · subst hlast
    have hbody : argument "" texts args.length = texts[args.length] := by
      simp [argument, hposition]
    exact hbody ▸ hverbatim.body env.layout _
  · have harg : position < args.length := by omega
    refine (hverbatim.applySource args[position] texts[position]).trans ?_
    have hsource : (env.dialect.applySource args[position] texts[position],
        args[position].ty.withoutEventual) ∈ sources env.dialect args texts :=
      List.mem_iff_getElem.mpr ⟨position, by simp [sources, harg, hposition], by simp [sources]⟩
    refine hverbatim.source env.layout ?_ hsource
    simpa [sources, Env.parameterIdents, Env.dialect, hlength] using hpaired

theorem within_finish {whole : Bound.Expr} {finish : List String → Rendering String}
    (hfinish : (frame env expected whole).result = .ok finish)
    (hlength : texts.length = (values env expected whole).length)
    (hpaired : ∀ args params body ty, whole = .apply args params body ty →
      env.target = .go ∨ args.length ≤ params.length)
    (h : (finish texts).result = .ok text) (hwritten : written ∈ texts) : Within written text := by
  have hverbatim : env.dialect.Verbatim := verbatim_dialectOf env.target
  cases whole with
  | literal | access | placeholder | error =>
    obtain rfl := List.eq_nil_of_length_eq_zero (hlength.trans (by simp [values, places]))
    simp at hwritten
  | template parts ty =>
    obtain rfl := Except.ok.inj hfinish
    have hparts : texts.length = (parts.filterMap Part.value?).length :=
      hlength.trans (by simp [values, places])
    have hpiece := code_mem_pieces hparts hwritten
    rw [text_of_code hpiece h]
    exact hverbatim.template env.layout hpiece
  | object entries ty =>
    rcases frame_object_ok hfinish with ⟨_, parsed, hbuilt, -, rfl⟩ | ⟨_, hbuilt, rfl⟩
    · have hentries : texts.length = entries.length :=
        hlength.trans (by simp [values, places, hbuilt])
      obtain ⟨_, hfield⟩ := exists_mem_members env.dialect.propertyName hentries hwritten
      obtain ⟨-, -, heq⟩ := result_bind_eq_ok.mp h
      obtain rfl : _ = text := Except.ok.inj heq
      exact hverbatim.struct env.layout parsed hfield
    · have hentries : texts.length = entries.length :=
        hlength.trans (by simp [values, places, hbuilt])
      obtain ⟨_, hpair⟩ := exists_mem_members id hentries hwritten
      obtain rfl : _ = text := Except.ok.inj h
      exact hverbatim.map env.layout env.input _ hpair
  | array items ty | tuple items ty =>
    obtain rfl := Except.ok.inj hfinish
    obtain rfl : _ = text := Except.ok.inj h
    exact hverbatim.list env.layout env.input _ hwritten
  | call builtin args ty =>
    obtain rfl := Except.ok.inj hfinish
    obtain ⟨-, -, heq⟩ := result_bind_eq_ok.mp h
    obtain rfl : _ = text := Except.ok.inj heq
    have hargs : texts.length ≤ builtin.params.length :=
      hlength ▸ by simp [values, places]
    exact hverbatim.call ty hargs hwritten
  | conditional condition accepted rejected ty =>
    obtain ⟨first, second, third, rfl⟩ := List.length_eq_three.mp hlength
    obtain rfl := Except.ok.inj hfinish
    obtain ⟨hfirst, hsecond, hthird⟩ := within_conditional h
    simp only [List.mem_cons, List.not_mem_nil, or_false] at hwritten
    rcases hwritten with rfl | rfl | rfl <;> assumption
  | binary op left right ty =>
    obtain ⟨first, second, rfl⟩ := List.length_eq_two.mp hlength
    obtain rfl := Except.ok.inj hfinish
    obtain rfl : _ = text := Except.ok.inj h
    obtain ⟨hfirst, hsecond⟩ := hverbatim.binary op (parenthesize left first)
      (parenthesize right second)
    simp only [List.mem_cons, List.not_mem_nil, or_false] at hwritten
    rcases hwritten with rfl | rfl
    · exact (within_parenthesize _ _).trans hfirst
    · exact (within_parenthesize _ _).trans hsecond
  | unary op operand ty =>
    obtain ⟨only, rfl⟩ := List.length_eq_one_iff.mp hlength
    obtain rfl := Except.ok.inj hfinish
    obtain rfl : _ = text := Except.ok.inj h
    obtain rfl := List.mem_singleton.mp hwritten
    exact (within_parenthesize _ written).trans (hverbatim.unary op _)
  | index collection key ty =>
    obtain ⟨first, second, rfl⟩ := List.length_eq_two.mp hlength
    obtain rfl := Except.ok.inj hfinish
    obtain rfl : _ = text := Except.ok.inj h
    simp only [List.mem_cons, List.not_mem_nil, or_false] at hwritten
    rcases hwritten with rfl | rfl
    · exact (((Within.refl _).append_right _).append_right _).append_right _
    · exact .between _ written _
  | invoke token args field reads ty =>
    obtain ⟨parsed, -, rfl⟩ := frame_invoke_ok hfinish
    have hargs : texts.length = args.length := hlength.trans (by simp [values, places])
    obtain ⟨_, hfield⟩ := exists_mem_members env.dialect.propertyName hargs hwritten
    obtain ⟨-, -, heq⟩ := result_bind_eq_ok.mp h
    obtain rfl : _ = text := Except.ok.inj heq
    exact hverbatim.invoke env.layout hfield
  | apply args params body ty =>
    obtain rfl := Except.ok.inj hfinish
    obtain rfl : _ = text := Except.ok.inj h
    exact within_apply body (hlength.trans (by simp [values])) (hpaired _ _ _ _ rfl) hwritten

theorem text_of_apply {args : List Bound.Expr} {params : List String} {body : Bound.Expr} {ty : Ty}
    (h : (render env expected (.apply args params body ty)).result = .ok text) :
    ∃ sources written, (renderSources env.plain args).result = .ok sources ∧
      (expression (bodyEnv env params (env.parameterIdents params) args.length) .any body).result =
        .ok written ∧
      text = env.dialect.apply env.layout
        ⟨sources, env.parameterIdents params, written, body.ty.withoutEventual⟩ := by
  rw [render] at h
  obtain ⟨sources, hsources, h⟩ := result_bind_eq_ok.mp h
  obtain ⟨written, hwritten, heq⟩ := result_bind_eq_ok.mp h
  exact ⟨sources, written, hsources, hwritten, (Except.ok.inj heq).symm⟩

theorem exists_rendered (h : (expression env expected part).result = .ok text) :
    ∃ rendered, (render env expected part).result = .ok rendered ∧ Within rendered text := by
  obtain ⟨-, -, h⟩ := result_bind_eq_ok.mp h
  obtain ⟨rendered, hrendered, heq⟩ := result_bind_eq_ok.mp h
  obtain rfl : _ = text := Except.ok.inj heq
  refine ⟨rendered, hrendered, ?_⟩
  split
  · exact (verbatim_dialectOf env.target).inputValue part rendered
  · exact .refl rendered

end

namespace Spot

variable {spot call other : Spot} {text : String}

theorem Calls.mem_values (h : spot.Calls call) :
    (call.env, call.expected, call.value) ∈ values spot.env spot.expected spot.value := by
  cases h with
  | argument hvalue harg =>
    rw [hvalue]
    exact List.mem_append_left _ (List.mem_map_of_mem harg)
  | body hvalue =>
    rw [hvalue]
    exact List.mem_append_right _ (List.mem_singleton.mpr rfl)
  | part hother hplace =>
    rw [values_of_ne_apply hother]
    exact List.mem_map_of_mem hplace

theorem Calls.exists_within (hcall : spot.Calls call) (hpaired : spot.Paired)
    (h : spot.rendering.result = .ok text) :
    ∃ written, call.rendering.result = .ok written ∧ Within written text := by
  obtain ⟨rendered, hrendered, hwithin⟩ := exists_rendered h
  rw [render_eq] at hrendered
  obtain ⟨finish, hfinish, hrendered⟩ := result_bind_eq_ok.mp hrendered
  obtain ⟨texts, htexts, hrendered⟩ := result_bind_eq_ok.mp hrendered
  obtain ⟨written, hmem, hwritten⟩ := exists_of_mapM htexts hcall.mem_values
  have hlength := (forall₂_of_mapM htexts).length_eq.symm
  exact ⟨written, hwritten, (within_finish hfinish hlength hpaired hrendered hmem).trans hwithin⟩

/-- The text of a spot holds the texts of all spots that it leads to. -/
theorem Reaches.exists_within (hreaches : spot.Reaches other)
    (hpaired : ∀ {inner : Spot}, spot.Reaches inner → inner.Paired)
    (h : spot.rendering.result = .ok text) :
    ∃ written, other.rendering.result = .ok written ∧ Within written text := by
  induction hreaches generalizing text with
  | self => exact ⟨text, h, .refl text⟩
  | call hcall _ ih =>
    -- If the whole is rendered, so is each value on the way down.
    obtain ⟨middle, hmiddle, hwithin⟩ := hcall.exists_within (hpaired .self) h
    obtain ⟨written, hwritten, hpart⟩ := ih (fun hinner => hpaired (.call hcall hinner)) hmiddle
    exact ⟨written, hwritten, hpart.trans hwithin⟩

theorem Reaches.env_eq (hreaches : spot.Reaches other) :
    ∃ level input scopes, other.env = { spot.env with level, input, scopes } := by
  induction hreaches with
  | self => exact ⟨_, _, _, rfl⟩
  | call hcall _ ih =>
    obtain ⟨_, _, _, hinner⟩ := ih
    obtain ⟨_, _, _, henv⟩ := hcall.env_eq
    exact ⟨_, _, _, by rw [hinner, henv]⟩

end Spot

theorem within_of_stands_access {spot : Spot} {text : String} {slot ty : Ty} {path : Bound.Path}
    (hgo : spot.env.target = .go) (h : spot.rendering.result = .ok text)
    (hstands : Stands spot.expected spot.value slot (.access path ty))
    (hkind : path.kind.isInput = false) : Within (spot.env.identifierFor path.root) text := by
  obtain ⟨other, hreaches, rfl, hvalue⟩ := hstands.exists_reaches
  have hpaired {inner : Spot} (hinner : spot.Reaches inner) : inner.Paired := by
    obtain ⟨_, _, _, henv⟩ := hinner.env_eq
    exact fun _ _ _ _ _ => .inl (by rw [henv, hgo])
  obtain ⟨written, hwritten, hwithin⟩ := hreaches.exists_within hpaired h
  obtain ⟨rendered, hrendered, hpart⟩ := exists_rendered hwritten
  refine Within.trans ?_ (hpart.trans hwithin)
  obtain ⟨_, _, _, henv⟩ := hreaches.env_eq
  rw [hvalue, henv, render, access] at hrendered
  cases hpath : path.kind with
  | input input => simp [hpath, Bound.RootKind.isInput] at hkind
  | _ =>
    rw [hpath] at hrendered
    obtain rfl : _ = rendered := Except.ok.inj hrendered
    exact (verbatim_dialectOf spot.env.target).access path _

end Provision.Render

/-! ## Declarations -/

namespace Provision.Assembly

open Render Rendering
open Text (Within)

def nodeSpots (env : Env) (node : Bound.Node) : List Spot :=
  match node.body with
  | .config _ valueType default _ =>
    default.toList.map fun value => ⟨env.plain, [], valueType, value⟩
  | .resource _ properties options =>
    (properties.map fun slot => ⟨env.deeper, [], slot.expected, slot.value⟩)
      ++ (optionPlaces options).map fun place => ⟨env.deeper.plain, [], place.1, place.2⟩
  | .variable value => [⟨env.plain, [], .any, value⟩]
  | .output value => [⟨env, [], .any, value⟩]

theorem exists_nodeSpot (env : Env) {node : Bound.Node} {place : Ty × Bound.Expr}
    (h : place ∈ nodePlaces node) :
    ∃ spot ∈ nodeSpots env node, (∃ level input, spot.env = { env with level, input }) ∧
      spot.expected = place.1 ∧ spot.value = place.2 := by
  obtain ⟨name, body⟩ := node
  cases body with
  | config type valueType default secret =>
    obtain ⟨value, hvalue, rfl⟩ := List.mem_map.mp h
    exact ⟨_, List.mem_map_of_mem hvalue, ⟨_, _, rfl⟩, rfl, rfl⟩
  | resource token properties options =>
    rcases List.mem_append.mp h with h | h
    · obtain ⟨slot, hslot, rfl⟩ := List.mem_map.mp h
      exact ⟨_, List.mem_append_left _ (List.mem_map_of_mem hslot), ⟨_, _, rfl⟩, rfl, rfl⟩
    · exact ⟨_, List.mem_append_right _ (List.mem_map_of_mem h), ⟨_, _, rfl⟩, rfl, rfl⟩
  | «variable» value | output value =>
    obtain rfl := List.mem_singleton.mp h
    exact ⟨_, List.mem_singleton.mpr rfl, ⟨_, _, rfl⟩, rfl, rfl⟩

section

variable {env : Env} {expected : Ty} {text : String}

theorem exists_of_renderOption {option : Option Bound.Expr} {rendered : Option String}
    (h : (renderOption env expected option).result = .ok rendered) {value : Bound.Expr}
    (hvalue : value ∈ option.toList) :
    ∃ written, rendered = some written ∧ (expression env expected value).result = .ok written := by
  obtain rfl : option = some value := by simpa using hvalue
  obtain ⟨written, hwritten, heq⟩ := result_bind_eq_ok.mp h
  exact ⟨written, (Except.ok.inj heq).symm, hwritten⟩

private theorem exists_of_renderOptions {options : Bound.Options Bound.Expr}
    {rendered : Bound.Options String} (h : (renderOptions env options).result = .ok rendered)
    {place : Ty × Bound.Expr} (hplace : place ∈ optionPlaces options) :
    ∃ written ∈ rendered.values,
      (expression env.deeper.plain place.1 place.2).result = .ok written := by
  refine exists_of_mapM (f := fun place => expression env.deeper.plain place.1 place.2) ?_ hplace
  rw [← values_renderOptions, map_eq_pure_bind]
  exact result_bind_eq_ok.mpr ⟨rendered, h, rfl⟩

section

variable {nodes : List Bound.Node} {ident name : String} {isFirst : Bool}

theorem config_of_renderNode {type : ConfigType} {valueType : Ty} {default : Option Bound.Expr}
    {secret : Bool} (h : (renderNode env nodes ident isFirst
      ⟨name, .config type valueType default secret⟩).result = .ok text) :
    ∃ rendered, (renderOption env.plain valueType default).result = .ok rendered ∧
      env.dialect.configStatement env.layout ⟨ident, name, type, rendered, secret⟩ = text := by
  obtain ⟨rendered, hrendered, h⟩ := result_bind_eq_ok.mp h
  obtain ⟨-, -, heq⟩ := result_bind_eq_ok.mp h
  exact ⟨rendered, hrendered, Except.ok.inj heq⟩

theorem resource_of_renderNode {token : String} {properties : List Bound.Member}
    {options : Bound.Options Bound.Expr} (h : (renderNode env nodes ident isFirst
      ⟨name, .resource token properties options⟩).result = .ok text) :
    ∃ parsed fields rendered, (renderFields env.deeper properties).result = .ok fields ∧
      (renderOptions env options).result = .ok rendered ∧
      env.dialect.resourceStatement env.layout
        ⟨ident, isReferenced nodes name, name, parsed, fields, rendered, isFirst⟩ = text := by
  obtain ⟨parsed, -, h⟩ := result_bind_eq_ok.mp h
  obtain ⟨-, -, h⟩ := result_bind_eq_ok.mp h
  obtain ⟨fields, hfields, h⟩ := result_bind_eq_ok.mp h
  obtain ⟨rendered, hrendered, h⟩ := result_bind_eq_ok.mp h
  obtain ⟨-, -, heq⟩ := result_bind_eq_ok.mp h
  exact ⟨parsed, fields, rendered, hfields, hrendered, Except.ok.inj heq⟩

end

theorem exists_within_of_nodeSpots {nodes : List Bound.Node} {ident : String} {isFirst : Bool}
    {node : Bound.Node} {spot : Spot} (hspot : spot ∈ nodeSpots env node)
    (h : (renderNode env nodes ident isFirst node).result = .ok text) :
    ∃ written, spot.rendering.result = .ok written ∧ Within written text := by
  have hverbatim : env.dialect.Verbatim := verbatim_dialectOf env.target
  obtain ⟨name, body⟩ := node
  cases body with
  | config type valueType default secret =>
    obtain ⟨rendered, hrendered, rfl⟩ := config_of_renderNode h
    obtain ⟨expr, hexpr, rfl⟩ := List.mem_map.mp hspot
    obtain ⟨written, rfl, hwritten⟩ := exists_of_renderOption hrendered hexpr
    exact ⟨written, hwritten, hverbatim.configStatement env.layout rfl⟩
  | resource token properties options =>
    obtain ⟨parsed, fields, rendered, hfields, hrendered, rfl⟩ := resource_of_renderNode h
    rcases List.mem_append.mp hspot with hspot | hspot
    · obtain ⟨slot, hslot, rfl⟩ := List.mem_map.mp hspot
      rw [renderFields_eq] at hfields
      obtain ⟨texts, htexts, rfl⟩ := result_map_eq_ok.mp hfields
      obtain ⟨written, hmem, hwritten⟩ := exists_of_mapM htexts hslot
      obtain ⟨_, hfield⟩ := exists_mem_members env.deeper.dialect.propertyName
        (forall₂_of_mapM htexts).length_eq.symm hmem
      exact ⟨written, hwritten, hverbatim.property env.layout hfield⟩
    · obtain ⟨place, hplace, rfl⟩ := List.mem_map.mp hspot
      obtain ⟨written, hmem, hwritten⟩ := exists_of_renderOptions hrendered hplace
      exact ⟨written, hwritten, hverbatim.option env.layout hmem⟩
  | «variable» value =>
    obtain ⟨written, hwritten, heq⟩ := result_bind_eq_ok.mp h
    obtain rfl : _ = text := Except.ok.inj heq
    obtain rfl := List.mem_singleton.mp hspot
    exact ⟨written, hwritten, hverbatim.variableStatement ident written _⟩
  | output value =>
    obtain ⟨written, hwritten, heq⟩ := result_bind_eq_ok.mp h
    obtain rfl : _ = text := Except.ok.inj heq
    obtain rfl := List.mem_singleton.mp hspot
    exact ⟨written, hwritten, hverbatim.outputStatement name ident written⟩

end

theorem within_of_standsIn_access {env : Env} {text : String} {nodes : List Bound.Node}
    {ident : String} {isFirst : Bool} {node : Bound.Node} (hgo : env.target = .go)
    (h : (renderNode env nodes ident isFirst node).result = .ok text) {slot ty : Ty}
    {path : Bound.Path} (hstands : StandsIn node slot (.access path ty))
    (hkind : path.kind.isInput = false) : Within (env.identifierFor path.root) text := by
  obtain ⟨place, hplace, hstands⟩ := hstands
  obtain ⟨spot, hspot, ⟨level, input, henv⟩, hexpected, hvalue⟩ := exists_nodeSpot env hplace
  obtain ⟨written, hwritten, hwithin⟩ := exists_within_of_nodeSpots hspot h
  rw [← hexpected, ← hvalue] at hstands
  have hnamed := within_of_stands_access (by rw [henv, hgo]) hwritten hstands hkind
  rw [henv] at hnamed
  exact hnamed.trans hwithin

end Provision.Assembly
