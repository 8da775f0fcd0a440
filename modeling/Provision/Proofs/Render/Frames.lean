import Provision.Proofs.Program
import Provision.Proofs.Render.Lists

/-!
# Frames

An expression is rendered in three steps: its frame is made ready, the values in it are rendered
from left to right, and their texts are put into the frame. What holds of renderings in general is
proved of expressions along these steps.
-/

namespace Provision.Render

open Rendering
open Bound.Slot (typed)

/-- The values that an expression is rendered from, each with the type that is expected there. -/
def places (expected : Ty) : Bound.Expr → List (Ty × Bound.Expr)
  | .template parts _ => (parts.filterMap Part.value?).map (.any, ·)
  | .object entries ty =>
    match (construction expected ty).result with
    | .ok (.struct _) => entries.map typed
    | .ok (.map values) => entries.map fun entry => (values, entry.value)
    | .error _ => []
  | .array items ty | .tuple items ty => items.map (memberType expected ty, ·)
  | .call builtin args _ => builtin.params.zip args
  | .conditional condition accepted rejected _ =>
    [(.bool, condition), (expected, accepted), (expected, rejected)]
  | .binary _ left right _ => [(.any, left), (.any, right)]
  | .unary _ operand _ => [(.any, operand)]
  | .index collection key _ => [(.any, collection), (.any, key)]
  | .invoke _ args _ _ _ => args.map typed
  | .apply args _ body _ => args.map (.any, ·) ++ [(.any, body)]
  | .literal .. | .access .. | .placeholder .. | .error _ => []

def innerEnv (env : Env) (expected : Ty) : Bound.Expr → Env
  | .object _ ty =>
    match (construction expected ty).result with
    | .ok (.struct _) => env.deeper.withInput true
    | _ => env.deeper
  | .array .. | .tuple .. => env.deeper
  | .call builtin .. => env.withInput builtin.acceptsEventual
  | .invoke .. => env.deeper.withInput true
  | _ => env.plain

theorem places_mapChildren (expected : Ty) (f : Bound.Expr → Bound.Expr) (whole : Bound.Expr) :
    places expected (whole.mapChildren f) = (places expected whole).map (Prod.map id f) := by
  cases whole with
  | object entries ty =>
    simp only [Bound.Expr.mapChildren, places]
    split <;> simp [Function.comp_def, typed, Bound.Slot.map]
  | template parts ty =>
    have hvalues : (parts.map (Part.map f)).filterMap Part.value? =
        (parts.filterMap Part.value?).map f :=
      @Bound.Expr.children_mapChildren f (.template parts ty)
    simp [Bound.Expr.mapChildren, places, hvalues, Function.comp_def]
  | call builtin args ty => simp [Bound.Expr.mapChildren, places, List.zip_map_right]
  | _ => simp [Bound.Expr.mapChildren, places, Function.comp_def, typed, Bound.Slot.map]

theorem mem_children_of_mem_places {expected inner : Ty} {whole part : Bound.Expr}
    (h : (inner, part) ∈ places expected whole) : part ∈ whole.children := by
  have hchildren : (places expected whole).map Prod.snd ⊆ whole.children := by
    cases whole with
    | object entries ty =>
      simp only [places]
      split <;> simp [Bound.Expr.children, Function.comp_def, typed]
    | call builtin args ty =>
      intro value hvalue
      obtain ⟨pair, hpair, rfl⟩ := List.mem_map.mp hvalue
      exact (List.of_mem_zip hpair).2
    | _ => simp [places, Bound.Expr.children, Function.comp_def, typed]
  exact hchildren (List.mem_map_of_mem h)

theorem innerEnv_eq (env : Env) (expected : Ty) (whole : Bound.Expr) :
    ∃ level input, innerEnv env expected whole = { env with level, input } := by
  cases whole with
  | object entries ty =>
    rw [innerEnv]
    split <;> exact ⟨_, _, rfl⟩
  | _ => exact ⟨_, _, rfl⟩

def values (env : Env) (expected : Ty) : Bound.Expr → List (Env × Ty × Bound.Expr)
  | .apply args params body _ =>
    args.map (env.plain, .any, ·)
      ++ [(bodyEnv env params (env.parameterIdents params) args.length, .any, body)]
  | whole => (places expected whole).map (innerEnv env expected whole, ·)

theorem values_of_ne_apply {whole : Bound.Expr}
    (h : ∀ args params body ty, whole ≠ .apply args params body ty) (env : Env) (expected : Ty) :
    values env expected whole =
      (places expected whole).map (innerEnv env expected whole, ·) := by
  cases whole with
  | apply args params body ty => exact absurd rfl (h args params body ty)
  | _ => rfl

theorem map_snd_values (env : Env) (expected : Ty) (whole : Bound.Expr) :
    (values env expected whole).map Prod.snd = places expected whole := by
  cases whole <;> simp [values, places, Function.comp_def]

theorem mem_children_of_mem_values {env : Env} {expected : Ty} {whole : Bound.Expr}
    {value : Env × Ty × Bound.Expr} (h : value ∈ values env expected whole) :
    value.2.2 ∈ whole.children := by
  have hplace : value.2 ∈ places expected whole :=
    map_snd_values env expected whole ▸ List.mem_map_of_mem h
  exact mem_children_of_mem_places hplace

/-- A value that stands in an expression, which may be the expression itself, with the type that is
expected where it stands. -/
inductive Stands : Ty → Bound.Expr → Ty → Bound.Expr → Prop
  | self {expected : Ty} {value : Bound.Expr} : Stands expected value expected value
  | under {expected inner slot : Ty} {whole part value : Bound.Expr} :
      (inner, part) ∈ places expected whole → Stands inner part slot value →
        Stands expected whole slot value

/-- What is made of the texts of the values in an expression, once it is clear that there is
something to be made of them. -/
def frame (env : Env) (expected : Ty) : Bound.Expr → Rendering (List String → Rendering String)
  | .literal value _ => return fun _ => return literal env.dialect value
  | .template parts _ => return fun texts => template env (pieces parts texts)
  | .object entries ty => do
    match ← construction expected ty with
    | .struct token =>
      let parsed ← tokenOrFail "struct type" token
      checkNames env (" of `" ++ token ++ "`") (entries.map (·.key))
      return fun texts => struct env parsed (members env.dialect.propertyName entries texts)
    | .map values =>
      return fun texts =>
        return env.dialect.map env.layout env.input (members id entries texts) values
  | .array _ ty | .tuple _ ty =>
    return fun texts =>
      return env.dialect.list env.layout env.input texts (memberType expected ty)
  | .access path _ => return fun _ => access env path
  | .call builtin _ ty => return fun texts => call env builtin texts ty
  | .conditional .. =>
    return fun texts =>
      conditional env (argument "" texts 0) (argument "" texts 1) (argument "" texts 2)
  | .binary op left right _ =>
    return fun texts =>
      return env.dialect.binary op (parenthesize left (argument "" texts 0))
        (parenthesize right (argument "" texts 1))
  | .unary op operand _ =>
    return fun texts => return env.dialect.unary op (parenthesize operand (argument "" texts 0))
  | .index .. =>
    return fun texts => return argument "" texts 0 ++ "[" ++ argument "" texts 1 ++ "]"
  | .invoke token args field readsResource _ => do
    let parsed ← tokenOrFail "function" token
    checkNames env (" of `" ++ token ++ "`") (args.map (·.key))
    return fun texts =>
      invoke env ⟨parsed, members env.dialect.propertyName args texts, field, readsResource⟩
  | .apply args params body _ =>
    return fun texts =>
      return env.dialect.apply env.layout ⟨sources env.dialect args texts,
        env.parameterIdents params, argument "" texts args.length, body.ty.withoutEventual⟩
  | .placeholder name _ =>
    match env.parameter? name with
    | some text => return fun _ => return text
    | none => .unsupported ("`" ++ name ++ "` is used outside of its apply")
  | .error _ => return fun _ => return env.dialect.null

def valueText (value : Env × Ty × Bound.Expr) : Rendering String :=
  expression value.1 value.2.1 value.2.2

theorem render_eq (env : Env) (expected : Ty) (whole : Bound.Expr) :
    render env expected whole =
      frame env expected whole >>= fun finish =>
        (values env expected whole).mapM valueText >>= finish := by
  have hdeeper : (env.deeper.withInput true).dialect = env.dialect := rfl
  have hplain : env.plain.dialect = env.dialect := rfl
  cases whole with
  | literal | access | error => simp [render, frame, values, places]
  | template parts ty =>
    simp [render, frame, values, places, innerEnv, renderParts_eq, valueText, Function.comp_def]
  | object entries ty =>
    rw [render, frame, bind_assoc]
    refine bind_congr_ok fun built hbuilt => ?_
    cases built <;>
      simp [values, places, innerEnv, hbuilt, renderFields_eq, renderValues_eq, valueText,
        Function.comp_def, hdeeper, typed]
  | array items ty | tuple items ty =>
    simp [render, frame, values, places, innerEnv, renderList_eq, valueText, Function.comp_def]
  | conditional | binary | unary | index =>
    simp [render, frame, values, places, innerEnv, valueText, expression, argument]
  | call builtin args ty =>
    simp [render, frame, values, places, innerEnv, renderArgs_eq, valueText, Function.comp_def]
  | invoke token args field reads ty =>
    simp [render, frame, values, places, innerEnv, renderFields_eq, valueText, Function.comp_def,
      hdeeper, typed]
  | apply args params body ty =>
    rw [render, frame, values, renderSources_eq, pure_bind, List.mapM_append, List.mapM_map]
    simp only [map_eq_pure_bind, bind_assoc, pure_bind]
    -- The last text is that of the body, and the others are those of the arguments.
    refine bind_congr_ok fun texts htexts => ?_
    have hlength : args.length = texts.length := (forall₂_of_mapM htexts).length_eq
    have hsources (text : String) :
        sources env.dialect args (texts ++ [text]) = sources env.dialect args texts := by
      simpa [sources] using @List.zipWith_append _ _ _ _ args [] texts [text] hlength
    simp [valueText, expression, argument, hlength, hsources, hplain]
  | placeholder name ty =>
    simp only [render, frame, values, places]
    cases env.parameter? name with
    | some text => simp
    | none => rfl

theorem ofText?_of_tokenOrFail {what token : String} {parsed : TypeToken}
    (h : (tokenOrFail what token).result = .ok parsed) : TypeToken.ofText? token = some parsed := by
  rw [tokenOrFail, TypeToken.parse] at h
  cases htoken : TypeToken.ofText? token with
  | none => simp [htoken, Rendering.unsupported, Rendering.fail] at h
  | some found =>
    rw [htoken] at h
    exact congrArg some (Except.ok.inj h)

section

variable {env : Env} {expected ty : Ty} {finish : List String → Rendering String}

theorem frame_object_ok {entries : List Bound.Member}
    (h : (frame env expected (.object entries ty)).result = .ok finish) :
    (∃ token parsed, (construction expected ty).result = .ok (.struct token) ∧
        TypeToken.ofText? token = some parsed ∧
        finish = fun texts => struct env parsed (members env.dialect.propertyName entries texts)) ∨
      ∃ values, (construction expected ty).result = .ok (.map values) ∧
        finish = fun texts =>
          pure (env.dialect.map env.layout env.input (members id entries texts) values) := by
  obtain ⟨built, hbuilt, h⟩ := result_bind_eq_ok.mp h
  cases built with
  | struct token =>
    obtain ⟨parsed, hparsed, h⟩ := result_bind_eq_ok.mp h
    obtain ⟨-, -, h⟩ := result_bind_eq_ok.mp h
    exact .inl ⟨token, parsed, hbuilt, ofText?_of_tokenOrFail hparsed, (Except.ok.inj h).symm⟩
  | map values => exact .inr ⟨values, hbuilt, (Except.ok.inj h).symm⟩

theorem frame_invoke_ok {token : String} {args : List Bound.Member}
    {field : Option String} {reads : Bool}
    (h : (frame env expected (.invoke token args field reads ty)).result = .ok finish) :
    ∃ parsed, TypeToken.ofText? token = some parsed ∧
      finish = fun texts =>
        invoke env ⟨parsed, members env.dialect.propertyName args texts, field, reads⟩ := by
  obtain ⟨parsed, hparsed, h⟩ := result_bind_eq_ok.mp h
  obtain ⟨-, -, h⟩ := result_bind_eq_ok.mp h
  exact ⟨parsed, ofText?_of_tokenOrFail hparsed, (Except.ok.inj h).symm⟩

end

end Provision.Render

namespace Provision.Assembly

open Render Rendering
open Bound.Slot (typed)

def optionPlaces (options : Bound.Options Bound.Expr) : List (Ty × Bound.Expr) :=
  options.parent.toList.map (Ty.any, ·) ++ options.dependsOn.map (Ty.any, ·)
    ++ options.protect.toList.map (Ty.bool, ·) ++ options.provider.toList.map (Ty.any, ·)
    ++ options.aliases.map (Ty.string, ·) ++ options.deleteBeforeReplace.toList.map (Ty.bool, ·)
    ++ options.importId.toList.map (Ty.string, ·) ++ options.version.toList.map (Ty.string, ·)

def nodePlaces (node : Bound.Node) : List (Ty × Bound.Expr) :=
  match node.body with
  | .config _ valueType default _ => default.toList.map (valueType, ·)
  | .resource _ properties options => properties.map typed ++ optionPlaces options
  | .variable value | .output value => [(.any, value)]

def StandsIn (node : Bound.Node) (slot : Ty) (value : Bound.Expr) : Prop :=
  ∃ place ∈ nodePlaces node, Stands place.1 place.2 slot value

theorem map_snd_nodePlaces (node : Bound.Node) :
    (nodePlaces node).map Prod.snd = node.expressions := by
  obtain ⟨name, body⟩ := node
  cases body <;> simp [nodePlaces, Bound.Node.expressions, optionPlaces, Bound.Options.values,
    Function.comp_def, typed]

theorem renderAll_toList (env : Env) (expected : Ty) (value : Option Bound.Expr) :
    renderAll env expected value.toList = Option.toList <$> renderOption env expected value := by
  cases value <;> simp [renderAll, renderOption]

theorem values_renderOptions (env : Env) (options : Bound.Options Bound.Expr) :
    Bound.Options.values <$> renderOptions env options =
      (optionPlaces options).mapM fun place => expression env.deeper.plain place.1 place.2 := by
  have hall (expected : Ty) (values : List Bound.Expr) :
      (values.map (expected, ·)).mapM (fun place => expression env.deeper.plain place.1 place.2) =
        renderAll env.deeper.plain expected values := by
    rw [renderAll_eq, List.mapM_map]
    rfl
  simp [renderOptions, optionPlaces, List.mapM_append, hall, renderAll_toList,
    Bound.Options.values]

end Provision.Assembly
