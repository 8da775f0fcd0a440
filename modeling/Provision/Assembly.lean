import Provision.Graph.Ordering
import Provision.Render.Expr

/-!
# Assembled programs

A lowered program as the source text of one target. Every declaration gets an identifier of its
own; the declarations that can be ordered become statements, and one that cannot be rendered
becomes a comment that says so.
-/

namespace Provision.Assembly

open Render (Env Rendering Need)

structure Statement where
  node : Nat
  text : String
  /-- Whether this is only a comment about a declaration that could not be rendered. -/
  isMarker : Bool
  deriving DecidableEq, Repr

structure Assembled where
  target : Target
  statements : List Statement
  imports : List Render.Import
  helpers : List Render.Helper
  diagnostics : List Diagnostic
  source : String

def quoted (name : String) : String := "`" ++ name ++ "`"

def nameAt (nodes : List Bound.Node) (position : Nat) : String :=
  (nodes[position]?.map Bound.Node.name).getD ""

def cycleReport (nodes : List Bound.Node) (cycle : List Nat) : Diagnostic :=
  let names := cycle.map (nameAt nodes)
  let message :=
    match names with
    | [name] => quoted name ++ " references itself"
    | _ => Render.commaList (names.map quoted) ++ " reference each other"
  ((Diagnostic.error .cyclicReference message).withSubject (names.headD "")).withHelp
    "none of these declarations can be emitted"

def blockedReport (nodes : List Bound.Node) (node member : Nat) : Diagnostic :=
  (Diagnostic.warning .reference
    (quoted (nameAt nodes node) ++ " is left out because it depends on "
      ++ quoted (nameAt nodes member))).withSubject (nameAt nodes node)

def orderReports (nodes : List Bound.Node) (ordering : Graph.Ordering) : List Diagnostic :=
  ordering.cycles.map (cycleReport nodes)
    ++ ordering.blocked.map fun (node, member) => blockedReport nodes node member

def namespaceRoots (dialect : Render.Dialect) (nodes : List Bound.Node) : List String :=
  nodes.filterMap fun node =>
    match node.body with
    | .resource token _ _ => (TypeToken.ofText? token).map dialect.namespaceRoot
    | _ => none

def choosingOrder (nodes : List Bound.Node) : List (Bound.Node × Nat) :=
  nodes.zipIdx.filter (!·.1.isOutput) ++ nodes.zipIdx.filter (·.1.isOutput)

def chooseIdents (dialect : Render.Dialect) (nodes : List Bound.Node) : List (Nat × String) :=
  let table := Names.Table.withReserved (dialect.reserved ++ namespaceRoots dialect nodes)
  let chosen := choosingOrder nodes
  let names := (table.uniqueAll (chosen.map fun (node, _) => dialect.identifier node.name)).1
  (chosen.map Prod.snd).zip names

def identOf (idents : List (Nat × String)) (position : Nat) : String :=
  (idents.lookup position).getD ""

/-- The environment of a program: a name stands for its first declaration, and every identifier is
taken. -/
def declareAll (env : Env) (nodes : List Bound.Node) (idents : List (Nat × String)) : Env :=
  idents.foldl (fun env (position, ident) =>
    match nodes[position]? with
    | some node =>
      if Graph.declarationOf nodes node.name = some position then env.declare node.name ident
      else env.reserve ident
    | none => env) ((namespaceRoots env.dialect nodes).foldl Env.reserve env)

def renderOption (env : Env) (expected : Ty) : Option Bound.Expr → Rendering (Option String)
  | some value => return some (← Render.expression env expected value)
  | none => return none

def renderAll (env : Env) (expected : Ty) : List Bound.Expr → Rendering (List String)
  | [] => return []
  | value :: rest => do
    let text ← Render.expression env expected value
    return text :: (← renderAll env expected rest)

def renderOptions (env : Env) (options : Bound.Options Bound.Expr) :
    Rendering (Bound.Options String) := do
  let env := env.deeper.plain
  let parent ← renderOption env .any options.parent
  let dependsOn ← renderAll env .any options.dependsOn
  let protect ← renderOption env .bool options.protect
  let provider ← renderOption env .any options.provider
  let aliases ← renderAll env .string options.aliases
  let deleteBeforeReplace ← renderOption env .bool options.deleteBeforeReplace
  let importId ← renderOption env .string options.importId
  let version ← renderOption env .string options.version
  return { parent, dependsOn, protect, provider, aliases, deleteBeforeReplace, importId, version
           ignoreChanges := options.ignoreChanges
           additionalSecretOutputs := options.additionalSecretOutputs
           customTimeouts := options.customTimeouts }

def isReferenced (nodes : List Bound.Node) (name : String) : Bool :=
  nodes.any (·.dependencies.contains name)

/-- Renders a declaration under its identifier; `isFirst` tells that no resource was written yet. -/
def renderNode (env : Env) (nodes : List Bound.Node) (ident : String) (isFirst : Bool)
    (node : Bound.Node) : Rendering String := do
  let dialect := env.dialect
  match node.body with
  | .config type valueType default secret =>
    let default ← renderOption env.plain valueType default
    Rendering.need (dialect.configNeeds type)
    return dialect.configStatement env.layout ⟨ident, node.name, type, default, secret⟩
  | .resource token properties options =>
    let parsed ← Render.tokenOrFail "resource type" token
    Render.checkNames env "" (properties.map (·.key))
    let properties ← Render.renderFields env.deeper properties
    let options ← renderOptions env options
    Rendering.need [.provider parsed]
    return dialect.resourceStatement env.layout
      ⟨ident, isReferenced nodes node.name, node.name, parsed, properties, options, isFirst⟩
  | .variable value =>
    let text ← Render.expression env.plain .any value
    return dialect.variableStatement ident text (isReferenced nodes node.name)
  | .output value =>
    let text ← Render.expression env .any value
    return dialect.outputStatement node.name ident text

def renderAt (env : Env) (nodes : List Bound.Node) (idents : List (Nat × String)) (isFirst : Bool)
    (position : Nat) (node : Bound.Node) : Rendering String :=
  let level := if node.isOutput then env.dialect.outputLevel else env.dialect.baseLevel
  renderNode { env with level } nodes (identOf idents position) isFirst node

structure Progress where
  statements : List Statement := []
  outputs : List Statement := []
  needs : List Need := []
  diagnostics : List Diagnostic := []
  resources : Nat := 0

def isResource (node : Bound.Node) : Bool :=
  match node.body with
  | .resource .. => true
  | _ => false

namespace Progress

def push (progress : Progress) (node : Bound.Node) (statement : Statement) : Progress :=
  if node.isOutput then { progress with outputs := progress.outputs ++ [statement] }
  else { progress with statements := progress.statements ++ [statement] }

def write (env : Env) (nodes : List Bound.Node) (idents : List (Nat × String))
    (progress : Progress) (position : Nat) : Progress :=
  match nodes[position]? with
  | none => progress
  | some node =>
    let rendering := renderAt env nodes idents (progress.resources == 0) position node
    let progress := { progress with needs := progress.needs ++ rendering.needs }
    match rendering.result with
    | .ok text =>
      let progress := progress.push node ⟨position, text, false⟩
      if isResource node then { progress with resources := progress.resources + 1 } else progress
    | .error diagnostic =>
      let text :=
        env.dialect.comment (quoted node.name ++ " was not generated: " ++ diagnostic.message)
      let progress := progress.push node ⟨position, text, true⟩
      { progress with
        diagnostics := progress.diagnostics ++ [diagnostic.withSubject node.name] }

end Progress

def programEnv (target : Target) (nodes : List Bound.Node) : Env × List (Nat × String) :=
  let idents := chooseIdents (Render.dialectOf target) nodes
  (declareAll { target } nodes idents, idents)

def writeAll (target : Target) (nodes : List Bound.Node) : Progress :=
  let ordering := Graph.order nodes
  let (env, idents) := programEnv target nodes
  ordering.order.foldl (Progress.write env nodes idents)
    { diagnostics := orderReports nodes ordering }

def assemble (program : Bound.Program) (target : Target) : Assembled :=
  let progress := writeAll target program.nodes
  { target
    statements := progress.statements ++ progress.outputs
    imports := Render.importsOf progress.needs
    helpers := Render.helpersOf progress.needs
    diagnostics := progress.diagnostics
    source := (Render.dialectOf target).program
      ⟨progress.needs, progress.statements.map (·.text), progress.outputs.map (·.text)⟩ }

end Provision.Assembly
