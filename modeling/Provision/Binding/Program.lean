import Provision.Binding.Expr
import Provision.Duration

/-!
# Binding programs

`bind` binds every declaration of a program against a schema registry. Names resolve to the first
declaration that is no output; a name declared again is reported.
-/

namespace Provision.Binding

def repeated (node : Node) : Diagnostic :=
  ((Diagnostic.error .duplicateDeclaration
    s!"{node.kindName} `{node.name}` is declared more than once").withSubject node.name).withHelp
      "only the first declaration can be referenced"

/-- Collects the names that can be read and reports those declared again. Outputs have names of
their own. -/
def collectSymbols (symbols : Symbols) (outputs : List String) :
    List (Node × Nat) → Symbols × List Diagnostic
  | [] => (symbols, [])
  | (node, position) :: rest =>
    match node with
    | .output name _ =>
      if outputs.contains name then
        let (symbols, diagnostics) := collectSymbols symbols outputs rest
        (symbols, repeated node :: diagnostics)
      else collectSymbols symbols (name :: outputs) rest
    | _ =>
      if (symbols.lookup node.name).isSome then
        let (symbols, diagnostics) := collectSymbols symbols outputs rest
        (symbols, repeated node :: diagnostics)
      else collectSymbols (symbols ++ [(node.name, position, node)]) outputs rest

/-- The value of the variable declared at a position, bound on the first call. A variable that is
read while it is being bound has no value yet; its type is left open and the cycle is reported when
the program is ordered. At most `depth` variables can be under way at once. -/
def variableValue (program : Program) (registry : Schema.Registry) (symbols : Symbols) :
    Nat → Nat → Bind Bound.Expr
  | 0, _ => pure (.error .any)
  | depth + 1, position => do
    match (← get).progress.lookup position with
    | some (.done value) => return value
    | some .underWay => return .error .any
    | none =>
      match program.nodes[position]? with
      | some (.variable name value) =>
        modify fun state => { state with progress := (position, .underWay) :: state.progress }
        let scope : Scope :=
          { registry, symbols, subject := name
            variableValue := variableValue program registry symbols depth }
        let bound ← bindExpr scope .any value
        modify fun state => { state with progress := (position, .done bound) :: state.progress }
        return bound
      | _ => return .failed

def listItems : Expr → List Expr
  | .array items _ => items
  | .tuple items _ => items
  | expr => [expr]

def bindOption (scope : Scope) (expected : Ty) : Option Expr → Bind (Option Bound.Expr)
  | none => pure none
  | some expr => do
    let value ← bindExpr scope expected expr
    return some value

def propertyNames (scope : Scope) (option : String) : List Expr → Bind (List String)
  | [] => pure []
  | .literal (.string name) _ :: rest => do
    let names ← propertyNames scope option rest
    return name :: names
  | item :: rest => do
    scope.fail .typeMismatch s!"`{option}` entries must be property names" item.span
    propertyNames scope option rest

def literalDuration? : Expr → Option String
  | .literal (.string duration) _ =>
    if (Duration.seconds? duration).isSome then some duration else none
  | _ => none

def timeoutEntries (scope : Scope) (timeouts : Bound.Timeouts) :
    List (String × Expr) → Bind Bound.Timeouts
  | [] => pure timeouts
  | (operation, value) :: rest => do
    if (timeouts.set? operation "").isNone then
      scope.fail .typeMismatch s!"`{operation}` is not a resource operation" value.span
      timeoutEntries scope timeouts rest
    else
      match literalDuration? value with
      | some duration =>
        timeoutEntries scope ((timeouts.set? operation duration).getD timeouts) rest
      | none =>
        scope.fail .typeMismatch
          s!"the `{operation}` timeout must be a duration such as `10m` or `1h30m`" value.span
        timeoutEntries scope timeouts rest

/-- Timeouts have to be literal durations, so that every target can spell them. -/
def bindTimeouts (scope : Scope) : Option Expr → Bind Bound.Timeouts
  | none => pure {}
  | some (.object entries _) => timeoutEntries scope {} entries
  | some expr => do
    scope.fail .typeMismatch
      "`customTimeouts` must be an object with `create`, `update` or `delete`" expr.span
    return {}

def bindOptions (scope : Scope) (options : ResourceOptions) : Bind (Bound.Options Bound.Expr) := do
  let parent ← bindOption scope .anyResource options.parent
  let provider ← bindOption scope .anyResource options.provider
  let protect ← bindOption scope .bool options.protect
  let dependsOn ← bindList scope .anyResource (options.dependsOn.toList.flatMap listItems)
  let ignoreChanges ←
    propertyNames scope "ignoreChanges" (options.ignoreChanges.toList.flatMap listItems)
  let additionalSecretOutputs ←
    propertyNames scope "additionalSecretOutputs"
      (options.additionalSecretOutputs.toList.flatMap listItems)
  let aliases ← bindList scope .string (options.aliases.toList.flatMap listItems)
  let deleteBeforeReplace ← bindOption scope .bool options.deleteBeforeReplace
  let importId ← bindOption scope .string options.importId
  let version ← bindOption scope .string options.version
  let customTimeouts ← bindTimeouts scope options.customTimeouts
  return { parent, dependsOn, protect, provider, ignoreChanges, aliases, deleteBeforeReplace,
           additionalSecretOutputs, customTimeouts, importId, version }

def bindProperties (scope : Scope) (slot : String → Except String Ty) (seen : List String) :
    List (String × Expr) → Bind (List Bound.Member)
  | [] => pure []
  | (name, value) :: rest => do
    if seen.contains name then
      scope.fail .duplicateDeclaration s!"property `{name}` is set more than once" value.span
      bindProperties scope slot seen rest
    else
      match slot name with
      | .error message =>
        scope.fail .typeMismatch message value.span
        bindProperties scope slot (name :: seen) rest
      | .ok expected =>
        let value ← bindExpr scope expected value
        let rest ← bindProperties scope slot (name :: seen) rest
        return ⟨name, expected, value⟩ :: rest

def bindResource (scope : Scope) (token : String) (properties : List (String × Expr))
    (options : ResourceOptions) : Bind Bound.Body := do
  let schema := scope.registry.resource? token
  let inputs := schema.map Schema.Resource.inputs
  reportToken scope "resource type" token schema.isSome none
  let bound ← bindProperties scope (inputSlot inputs "an input property" token) [] properties
  reportMissingInputs scope "property" token none (properties.map Prod.fst) inputs
  let options ← bindOptions scope options
  return .resource token bound options

def bindNode (scope : Scope) (position : Nat) (node : Node) : Bind Bound.Node := do
  let body ← match node with
    | .config _ type default secret => do
      let default ← bindOption scope (configTy type) default
      pure (.config type (configTy type) default secret)
    | .resource _ token properties options => bindResource scope token properties options
    | .variable _ _ => do
      let value ← scope.variableValue position
      pure (.variable value)
    | .output _ value => do
      let value ← bindExpr scope .any value
      pure (.output value)
  return ⟨node.name, body⟩

def bindNodes (scope : Scope) : List (Node × Nat) → Bind (List Bound.Node)
  | [] => pure []
  | (node, position) :: rest => do
    let bound ← bindNode { scope with subject := node.name } position node
    let rest ← bindNodes scope rest
    return bound :: rest

def bind (program : Program) (registry : Schema.Registry) : Bound.Program × List Diagnostic :=
  let nodes := program.nodes.zipIdx
  let (symbols, repeats) := collectSymbols [] [] nodes
  let scope : Scope :=
    { registry, symbols, subject := ""
      variableValue := variableValue program registry symbols (program.nodes.length + 1) }
  let (bound, state) := (bindNodes scope nodes).run { diagnostics := repeats }
  (⟨bound⟩, state.diagnostics)

end Provision.Binding
