import Provision.Proofs.Preamble

/-!
# The formatter

An expression can be written with one formatter that is changed on the way: members are written a
level deeper, operands where a plain value is expected, the body of an apply in a scope of its own.
Each change is undone after the part that it was made for, also when that part has failed.
Written like this, an expression is the text or the fault that it is rendered as, and leaves the
formatter as it was but for the needs that have come up.
-/

namespace Provision.Render

open Assembly (mem_importsOf mem_helpersOf)

structure Formatter extends Env where
  needs : List Need := []

/-- An action that writes with a formatter. What it has done to the formatter stays when it
fails. -/
abbrev Formatting := ExceptT Diagnostic (StateM Formatter)

namespace Formatter

def run {α : Type} (formatter : Formatter) (action : Formatting α) :
    Except Diagnostic α × Formatter :=
  StateT.run (ExceptT.run action) formatter

theorem run_bind {α β : Type} (formatter : Formatter) (action : Formatting α)
    (next : α → Formatting β) :
    formatter.run (action >>= next) =
      match formatter.run action with
      | (.ok value, after) => after.run (next value)
      | (.error diagnostic, after) => (.error diagnostic, after) := by
  unfold run StateT.run ExceptT.run
  simp only [bind, ExceptT.bind, ExceptT.mk, StateT.bind]
  cases action formatter with
  | mk result after => cases result <;> rfl

/-! ## Changes that are undone -/

section

variable {α : Type}

def current : Formatting Env := return (← get).toEnv

/-- Changes the formatter for a part and undoes the change when the part has ended, however it
has. -/
def around (change undo : Env → Env) (part : Formatting α) : Formatting α := ExceptT.mk do
  modify fun formatter => { formatter with toEnv := change formatter.toEnv }
  let result ← part.run
  modify fun formatter => { formatter with toEnv := undo formatter.toEnv }
  return result

theorem run_around (env : Env) (needs : List Need) (change undo : Env → Env)
    (part : Formatting α) :
    run ⟨env, needs⟩ (around change undo part) =
      ((run ⟨change env, needs⟩ part).1,
        { (run ⟨change env, needs⟩ part).2 with
          toEnv := undo (run ⟨change env, needs⟩ part).2.toEnv }) :=
  rfl

def indented (part : Formatting α) : Formatting α :=
  around Env.deeper (fun env => { env with level := env.level - 1 }) part

def withInput (input : Bool) (part : Formatting α) : Formatting α := do
  let previous := (← current).input
  around (·.withInput input) (·.withInput previous) part

def plain (part : Formatting α) : Formatting α := withInput false part

def withScope (scope : Bindings) (part : Formatting α) : Formatting α :=
  around (·.inScope scope) (fun env => { env with scopes := env.scopes.tail }) part

def step (rendered : Env → Rendering α) : Formatting α := ExceptT.mk do
  let rendering := rendered (← get).toEnv
  modify fun formatter => { formatter with needs := formatter.needs ++ rendering.needs }
  return rendering.result

end

/-! ## Writing expressions -/

def writePlaced (expected : Ty) (expr : Bound.Expr) (write : Formatting String) :
    Formatting String := do
  step fun env => checkStruct env expected expr
  let text ← write
  step fun env => return if env.input then env.dialect.inputValue expr text else text

def writeMembers (owner : String) (keys : List String)
    (write : Formatting (List (String × String))) : Formatting (List (String × String)) := do
  step fun env => checkNames env (" of `" ++ owner ++ "`") keys
  indented (withInput true write)

def writeBody (params idents : List String) (values : Nat) (write : Formatting String) :
    Formatting String := do
  let dialect := (← current).dialect
  let single := values == 1 && idents.length == 1
  let scope := Bindings.ofList (params.zip (idents.map (dialect.applyBinding single)))
  if dialect.applyIndents single values then indented (withScope scope (plain write))
  else withScope scope (plain write)

mutual

def write (expected : Ty) : Bound.Expr → Formatting String
  | .literal value _ => step fun env => return literal env.dialect value
  | .template parts _ => do
    let pieces ← plain (writeParts parts)
    step fun env => template env pieces
  | .object entries ty => do
    match ← step fun _ => construction expected ty with
    | .struct token =>
      let parsed ← step fun _ => tokenOrFail "struct type" token
      let fields ← writeMembers token (entries.map (·.key)) (writeFields entries)
      step fun env => struct env parsed fields
    | .map values =>
      let pairs ← indented (writeValues values entries)
      step fun env => return env.dialect.map env.layout env.input pairs values
  | .array items ty => do
    let element := memberType expected ty
    let items ← indented (writeList element items)
    step fun env => return env.dialect.list env.layout env.input items element
  | .tuple items ty => do
    let element := memberType expected ty
    let items ← indented (writeList element items)
    step fun env => return env.dialect.list env.layout env.input items element
  | .access path _ => step fun env => access env path
  | .call builtin args ty => do
    let args ← withInput builtin.acceptsEventual (writeArgs builtin.params args)
    step fun env => call env builtin args ty
  | .conditional condition accepted rejected _ => do
    let texts ← plain do
      let condition ← writePlaced .bool condition (write .bool condition)
      let accepted ← writePlaced expected accepted (write expected accepted)
      let rejected ← writePlaced expected rejected (write expected rejected)
      return (condition, accepted, rejected)
    step fun env => conditional env texts.1 texts.2.1 texts.2.2
  | .binary op left right _ => do
    let texts ← plain do
      let leftText ← writePlaced .any left (write .any left)
      let rightText ← writePlaced .any right (write .any right)
      return (parenthesize left leftText, parenthesize right rightText)
    step fun env => return env.dialect.binary op texts.1 texts.2
  | .unary op operand _ => do
    let text ← plain (writePlaced .any operand (write .any operand))
    step fun env => return env.dialect.unary op (parenthesize operand text)
  | .index collection key _ => do
    let texts ← plain do
      let collection ← writePlaced .any collection (write .any collection)
      let key ← writePlaced .any key (write .any key)
      return (collection, key)
    return texts.1 ++ "[" ++ texts.2 ++ "]"
  | .invoke token args field readsResource _ => do
    let parsed ← step fun _ => tokenOrFail "function" token
    let args ← writeMembers token (args.map (·.key)) (writeFields args)
    step fun env => invoke env ⟨parsed, args, field, readsResource⟩
  | .apply args params body _ => do
    let sources ← plain (writeSources args)
    let idents := (← current).parameterIdents params
    let text ← writeBody params idents args.length (writePlaced .any body (write .any body))
    let parts := ⟨sources, idents, text, body.ty.withoutEventual⟩
    step fun env => return env.dialect.apply env.layout parts
  | .placeholder name _ => step fun env =>
    match env.parameter? name with
    | some text => return text
    | none => .unsupported ("`" ++ name ++ "` is used outside of its apply")
  | .error _ => step fun env => return env.dialect.null

def writeParts : List (Part Bound.Expr) → Formatting (List Piece)
  | [] => return []
  | .text value :: rest => return .text value :: (← writeParts rest)
  | .expr value :: rest => do
    let text ← writePlaced .any value (write .any value)
    return .code text :: (← writeParts rest)

def writeFields : List Bound.Member → Formatting (List (String × String))
  | [] => return []
  | ⟨key, expected, value⟩ :: rest => do
    let text ← writePlaced expected value (write expected value)
    let name := (← current).dialect.propertyName key
    return (name, text) :: (← writeFields rest)

def writeValues (values : Ty) :
    List Bound.Member → Formatting (List (String × String))
  | [] => return []
  | ⟨key, _, value⟩ :: rest => do
    let text ← writePlaced values value (write values value)
    return (key, text) :: (← writeValues values rest)

def writeList (element : Ty) : List Bound.Expr → Formatting (List String)
  | [] => return []
  | item :: rest => do
    let text ← writePlaced element item (write element item)
    return text :: (← writeList element rest)

def writeArgs : List Ty → List Bound.Expr → Formatting (List String)
  | param :: params, arg :: rest => do
    let text ← writePlaced param arg (write param arg)
    return text :: (← writeArgs params rest)
  | _, _ => return []

def writeSources : List Bound.Expr → Formatting (List (String × Ty))
  | [] => return []
  | arg :: rest => do
    let text ← writePlaced .any arg (write .any arg)
    let source := (← current).dialect.applySource arg text
    return (source, arg.ty.withoutEventual) :: (← writeSources rest)

end

def expression (expected : Ty) (expr : Bound.Expr) : Formatting String :=
  writePlaced expected expr (write expected expr)

end Formatter

/-! ## Writing is rendering -/

/-- From an environment the action ends as the rendering does. It leaves the environment as it was
and adds the needs of the rendering. -/
def Writes {α : Type} (env : Env) (action : Formatting α) (rendering : Rendering α) : Prop :=
  ∀ needs, Formatter.run ⟨env, needs⟩ action =
    (rendering.result, ⟨env, needs ++ rendering.needs⟩)

namespace Writes

open Formatter

variable {α β : Type} {env : Env} {rendering : Rendering α} {part : Formatting α}

theorem ofStep (rendered : Env → Rendering α) : Writes env (step rendered) (rendered env) :=
  fun _ => rfl

theorem ofPure (value : α) : Writes env (pure value) (pure value) := by
  intro needs
  simp only [Rendering.needs_pure, List.append_nil]
  rfl

theorem bind {action : Formatting α} {next : α → Formatting β} {rest : α → Rendering β}
    (h : Writes env action rendering) (hnext : ∀ value, Writes env (next value) (rest value)) :
    Writes env (action >>= next) (rendering >>= rest) := by
  intro needs
  rw [run_bind, h needs]
  cases hresult : rendering.result with
  | ok value =>
    rw [Rendering.bind_ok rest hresult, ← List.append_assoc]
    exact hnext value (needs ++ rendering.needs)
  | error diagnostic => rw [Rendering.bind_error rest hresult]

theorem ofCurrent {next : Env → Formatting α} (h : Writes env (next env) rendering) :
    Writes env (current >>= next) rendering := by
  intro needs
  rw [run_bind]
  exact h needs

theorem around {change undo : Env → Env} (hundo : undo (change env) = env)
    (h : Writes (change env) part rendering) :
    Writes env (Formatter.around change undo part) rendering := by
  intro needs
  rw [run_around, h needs, hundo]

theorem indented (h : Writes env.deeper part rendering) :
    Writes env (Formatter.indented part) rendering :=
  around rfl h

theorem withInput {input : Bool} (h : Writes (env.withInput input) part rendering) :
    Writes env (Formatter.withInput input part) rendering :=
  ofCurrent (around rfl h)

theorem plain (h : Writes env.plain part rendering) : Writes env (Formatter.plain part) rendering :=
  withInput h

theorem withScope {scope : Bindings} (h : Writes (env.inScope scope) part rendering) :
    Writes env (Formatter.withScope scope part) rendering :=
  around rfl h

theorem placed {write : Formatting String} {rendering : Rendering String}
    (h : Writes env write rendering) (expected : Ty) (expr : Bound.Expr) :
    Writes env (Formatter.writePlaced expected expr write) (place env expected expr rendering) :=
  (ofStep fun env => checkStruct env expected expr).bind fun _ => h.bind fun text =>
    ofStep fun env => return if env.input then env.dialect.inputValue expr text else text

theorem writeMembers {owner : String} {keys : List String}
    {write : Formatting (List (String × String))} {rendering : Rendering (List (String × String))}
    (h : Writes (env.deeper.withInput true) write rendering) :
    Writes env (Formatter.writeMembers owner keys write)
      (checkNames env (" of `" ++ owner ++ "`") keys >>= fun _ => rendering) :=
  (ofStep fun env => checkNames env (" of `" ++ owner ++ "`") keys).bind fun _ =>
    indented (withInput h)

theorem writeBody {params idents : List String} {values : Nat} {write : Formatting String}
    {rendering : Rendering String} (h : Writes (bodyEnv env params idents values) write rendering) :
    Writes env (Formatter.writeBody params idents values write) rendering := by
  refine ofCurrent ?_
  unfold bodyEnv at h
  dsimp only at h ⊢
  split
  · next hindents =>
    rw [if_pos hindents] at h
    exact indented (withScope (plain h))
  · next hindents =>
    rw [if_neg hindents] at h
    exact withScope (plain h)

end Writes

mutual

theorem writes_write (env : Env) (expected : Ty) :
    (expr : Bound.Expr) → Writes env (Formatter.write expected expr) (render env expected expr)
  | .literal .. | .access .. | .placeholder .. | .error _ => by
    rw [Formatter.write, render]
    exact .ofStep _
  | .template parts _ => by
    rw [Formatter.write, render]
    exact (Writes.plain (writes_parts env.plain parts)).bind fun pieces => .ofStep _
  | .object entries ty => by
    rw [Formatter.write, render]
    refine (Writes.ofStep fun _ => construction expected ty).bind fun built => ?_
    cases built with
    | struct token =>
      refine (Writes.ofStep fun _ => tokenOrFail "struct type" token).bind fun parsed => ?_
      rw [← bind_assoc]
      exact (Writes.writeMembers (writes_fields _ entries)).bind fun fields => .ofStep _
    | map values =>
      exact (Writes.indented (writes_values env.deeper values entries)).bind fun pairs => .ofStep _
  | .array items ty | .tuple items ty => by
    rw [Formatter.write, render]
    exact (Writes.indented (writes_list env.deeper (memberType expected ty) items)).bind
      fun items => .ofStep _
  | .call builtin args ty => by
    rw [Formatter.write, render]
    exact (Writes.withInput (writes_args (env.withInput builtin.acceptsEventual) builtin.params
      args)).bind fun args => .ofStep _
  | .conditional condition accepted rejected _ => by
    rw [Formatter.write, render]
    have hcondition := (writes_write env.plain .bool condition).placed .bool condition
    have haccepted := (writes_write env.plain expected accepted).placed expected accepted
    have hrejected := (writes_write env.plain expected rejected).placed expected rejected
    have htexts := Writes.plain (hcondition.bind fun condition => haccepted.bind fun accepted =>
      hrejected.bind fun rejected => .ofPure (condition, accepted, rejected))
    simpa only [bind_assoc, pure_bind] using htexts.bind fun texts =>
      .ofStep fun env => conditional env texts.1 texts.2.1 texts.2.2
  | .binary op left right _ => by
    rw [Formatter.write, render]
    have hleft := (writes_write env.plain .any left).placed .any left
    have hright := (writes_write env.plain .any right).placed .any right
    have htexts := Writes.plain (hleft.bind fun leftText => hright.bind fun rightText =>
      .ofPure (parenthesize left leftText, parenthesize right rightText))
    simpa only [bind_assoc, pure_bind] using htexts.bind fun texts =>
      .ofStep fun env => return env.dialect.binary op texts.1 texts.2
  | .unary op operand _ => by
    rw [Formatter.write, render]
    exact (Writes.plain ((writes_write env.plain .any operand).placed .any operand)).bind
      fun text => .ofStep _
  | .index collection key _ => by
    rw [Formatter.write, render]
    have hcollection := (writes_write env.plain .any collection).placed .any collection
    have hkey := (writes_write env.plain .any key).placed .any key
    have htexts := Writes.plain (hcollection.bind fun collection => hkey.bind fun key =>
      .ofPure (collection, key))
    simpa only [bind_assoc, pure_bind] using htexts.bind fun texts =>
      .ofPure (texts.1 ++ "[" ++ texts.2 ++ "]")
  | .invoke token args field readsResource _ => by
    rw [Formatter.write, render]
    refine (Writes.ofStep fun _ => tokenOrFail "function" token).bind fun parsed => ?_
    rw [← bind_assoc]
    exact (Writes.writeMembers (writes_fields _ args)).bind fun fields => .ofStep _
  | .apply args params body _ => by
    rw [Formatter.write, render]
    refine (Writes.plain (writes_sources env.plain args)).bind fun sources => ?_
    refine Writes.ofCurrent ?_
    exact (Writes.writeBody ((writes_write _ .any body).placed .any body)).bind
      fun text => .ofStep _

theorem writes_parts (env : Env) :
    (parts : List (Part Bound.Expr)) →
      Writes env (Formatter.writeParts parts) (renderParts env parts)
  | [] => by
    rw [Formatter.writeParts, renderParts]
    exact .ofPure []
  | .text value :: rest => by
    rw [Formatter.writeParts, renderParts]
    exact (writes_parts env rest).bind fun pieces => .ofPure _
  | .expr value :: rest => by
    rw [Formatter.writeParts, renderParts]
    exact ((writes_write env .any value).placed .any value).bind fun text =>
      (writes_parts env rest).bind fun pieces => .ofPure _

theorem writes_fields (env : Env) :
    (entries : List Bound.Member) →
      Writes env (Formatter.writeFields entries) (renderFields env entries)
  | [] => by
    rw [Formatter.writeFields, renderFields]
    exact .ofPure []
  | ⟨key, expected, value⟩ :: rest => by
    rw [Formatter.writeFields, renderFields]
    refine ((writes_write env expected value).placed expected value).bind fun text => ?_
    refine Writes.ofCurrent ?_
    exact (writes_fields env rest).bind fun pieces => .ofPure _

theorem writes_values (env : Env) (values : Ty) :
    (entries : List Bound.Member) →
      Writes env (Formatter.writeValues values entries) (renderValues env values entries)
  | [] => by
    rw [Formatter.writeValues, renderValues]
    exact .ofPure []
  | ⟨key, _, value⟩ :: rest => by
    rw [Formatter.writeValues, renderValues]
    exact ((writes_write env values value).placed values value).bind fun text =>
      (writes_values env values rest).bind fun pairs => .ofPure _

theorem writes_list (env : Env) (element : Ty) :
    (items : List Bound.Expr) →
      Writes env (Formatter.writeList element items) (renderList env element items)
  | [] => by
    rw [Formatter.writeList, renderList]
    exact .ofPure []
  | item :: rest => by
    rw [Formatter.writeList, renderList]
    exact ((writes_write env element item).placed element item).bind fun text =>
      (writes_list env element rest).bind fun texts => .ofPure _

theorem writes_args (env : Env) :
    (params : List Ty) → (args : List Bound.Expr) →
      Writes env (Formatter.writeArgs params args) (renderArgs env params args)
  | param :: params, arg :: rest => by
    rw [Formatter.writeArgs, renderArgs]
    exact ((writes_write env param arg).placed param arg).bind fun text =>
      (writes_args env params rest).bind fun texts => .ofPure _
  | [], _ | _ :: _, [] => by
    rw [Formatter.writeArgs, renderArgs]
    · exact .ofPure []
    · simp
    · simp

theorem writes_sources (env : Env) :
    (args : List Bound.Expr) →
      Writes env (Formatter.writeSources args) (renderSources env args)
  | [] => by
    rw [Formatter.writeSources, renderSources]
    exact .ofPure []
  | arg :: rest => by
    rw [Formatter.writeSources, renderSources]
    refine ((writes_write env .any arg).placed .any arg).bind fun text => ?_
    refine Writes.ofCurrent ?_
    exact (writes_sources env rest).bind fun sources => .ofPure _

end

/-- Writing an expression leaves the formatter as it was, whether it succeeds or fails at any depth,
but for imports and helpers, which are only added. It ends in the text or fault that the expression
is rendered as, whatever was needed before. -/
theorem expression_frames_formatter (formatter : Formatter) (expected : Ty) (expr : Bound.Expr) :
    let run := formatter.run (Formatter.expression expected expr)
    run.2.toEnv = formatter.toEnv ∧
      importsOf formatter.needs ⊆ importsOf run.2.needs ∧
      helpersOf formatter.needs ⊆ helpersOf run.2.needs ∧
      run.1 = (expression formatter.toEnv expected expr).result ∧
      run.2.needs = formatter.needs ++ (expression formatter.toEnv expected expr).needs ∧
      ∀ needs, (Formatter.run { formatter with needs } (Formatter.expression expected expr)).1 =
        run.1 := by
  have hwrites : Writes formatter.toEnv (Formatter.expression expected expr)
      (expression formatter.toEnv expected expr) :=
    (writes_write formatter.toEnv expected expr).placed expected expr
  have hrun : formatter.run (Formatter.expression expected expr) = _ := hwrites formatter.needs
  dsimp only
  rw [hrun]
  refine ⟨rfl, fun item hitem => ?_, fun helper hhelper => ?_, rfl, rfl, fun needs => ?_⟩
  · exact mem_importsOf.mpr (List.mem_append_left _ (mem_importsOf.mp hitem))
  · exact mem_helpersOf.mpr (List.mem_append_left _ (mem_helpersOf.mp hhelper))
  · rw [hwrites needs]

-- The second item is refused two levels deeper than the list, after the first has been written.
example :
    let refused : Bound.Expr := .array [.call .toJson [.literal .null .null] .string,
      .tuple [.placeholder "vpc" .any] (.list .any)] (.list .any)
    let run := Formatter.run { target := .go, level := 2 } (Formatter.expression .any refused)
    run.1.toOption = none ∧ run.2.level = 2 ∧ run.2.input = true ∧
      helpersOf run.2.needs = [.toJson] := by
  decide +kernel

end Provision.Render
