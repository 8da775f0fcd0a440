import Provision.Names.Case
import Provision.Render.Dialect

/-!
# Go

Values at input positions carry their types: literals are wrapped, collections name the type of
their members, and the result of an apply is cast. Functions that may fail go through helpers that
the program declares after its entry point.
-/

namespace Provision.Render.Go

def keywords : List String :=
  ["break", "case", "chan", "const", "continue", "default", "defer", "else", "fallthrough", "for",
    "func", "go", "goto", "if", "import", "interface", "map", "package", "range", "return",
    "select", "struct", "switch", "type", "var", "nil", "true", "false", "string", "int", "bool",
    "float64", "error", "len", "append", "make", "new", "panic"]

def preamble : List String :=
  ["ctx", "cfg", "err", "param", "pulumi", "config", "fmt", "strings", "json", "base64", "os",
    "main", "readFileOrPanic", "toJSONOrPanic", "fromBase64OrPanic", "cwdOrPanic",
    "stackOutputOrPanic"]

def reserved : List String := keywords ++ preamble

def identifier (name : String) : String := avoiding reserved (Names.camelCase name)

def lastSegment (path : List Char) : List Char :=
  (path.reverse.takeWhile (· != '/')).reverse

def packageName (token : TypeToken) : String :=
  let segment := lastSegment (token.modulePath.getD token.package).toList
  match (segment.filter Char.isAlphanum).map Char.toLower with
  | [] => "provider"
  | name => String.ofList name

def importPath (package : String) : Option String → String
  | some module => s!"github.com/pulumi/pulumi-{package}/sdk/go/{package}/{module}"
  | none => s!"github.com/pulumi/pulumi-{package}/sdk/go/{package}"

/-! ## Types -/

def structName? (token : String) : Option String :=
  (TypeToken.ofText? token).map fun token => packageName token ++ "." ++ token.name

def anyType : String := "interface\x7b\x7d"

def plainType : Ty → String
  | .eventual inner | .optional inner => plainType inner
  | .string => "string"
  | .int => "int"
  | .number => "float64"
  | .bool => "bool"
  | .list element => "[]" ++ plainType element
  | .map values => "map[string]" ++ plainType values
  | .asset | .archive => "pulumi.AssetOrArchive"
  | _ => anyType

def isString (ty : Ty) : Bool :=
  match ty.resolved with
  | .string => true
  | _ => false

def outputType (ty : Ty) : String :=
  match ty.resolved with
  | .string => "pulumi.StringOutput"
  | .int => "pulumi.IntOutput"
  | .number => "pulumi.Float64Output"
  | .bool => "pulumi.BoolOutput"
  | .list element => if isString element then "pulumi.StringArrayOutput" else "pulumi.AnyOutput"
  | .map values => if isString values then "pulumi.StringMapOutput" else "pulumi.AnyOutput"
  | .object token => ((structName? token).map (· ++ "Output")).getD "pulumi.AnyOutput"
  | _ => "pulumi.AnyOutput"

def inputBase (ty : Ty) : String :=
  match ty.resolved with
  | .string => "pulumi.String"
  | .int => "pulumi.Int"
  | .number => "pulumi.Float64"
  | .bool => "pulumi.Bool"
  | .asset | .archive => "pulumi.AssetOrArchive"
  | .object token => (structName? token).getD "pulumi."
  | _ => "pulumi."

def wrap (text : String) (ty : Ty) : String :=
  match ty.resolved with
  | .string => s!"pulumi.String({text})"
  | .int => s!"pulumi.Int({text})"
  | .number => s!"pulumi.Float64({text})"
  | .bool => s!"pulumi.Bool({text})"
  | .list element =>
    if isString element then s!"pulumi.ToStringArray({text})" else s!"pulumi.Any({text})"
  | .map values =>
    if isString values then s!"pulumi.ToStringMap({text})" else s!"pulumi.Any({text})"
  | .null | .object _ | .asset | .archive | .error | .resource _ => text
  | _ => s!"pulumi.Any({text})"

def inputValue (expr : Bound.Expr) (text : String) : String :=
  match expr with
  | .object .. | .array .. | .tuple .. | .apply .. | .placeholder .. | .error _ | .invoke .. => text
  | .literal .null _ => text
  | .access path ty => if ty.isEventual || path.kind.isResource then text else wrap text ty
  | .call builtin _ ty =>
    if builtin.returnsEventual || builtin.assetSource?.isSome then text else wrap text ty
  | other => wrap text other.ty

/-! ## Templates -/

def formatPiece : Piece → List Char
  | .text value => Text.double '%' (Text.escape value.toList)
  | .code _ => ['%', 'v']

def code? : Piece → Option String
  | .text _ => none
  | .code value => some value

def template (_ : Layout) (pieces : List Piece) : String :=
  "fmt.Sprintf(\"" ++ String.ofList (pieces.flatMap formatPiece) ++ "\", "
    ++ commaList (pieces.filterMap code?) ++ ")"

/-! ## Expressions -/

def struct (layout : Layout) (token : TypeToken) (fields : List (String × String)) : String :=
  layout.block ("&" ++ packageName token ++ "." ++ token.name ++ "Args\x7b") (labelled ": " fields)
    "\x7d"

def map (layout : Layout) (input : Bool) (entries : List (String × String)) (values : Ty) :
    String :=
  let type := if input then inputBase values ++ "Map" else "map[string]" ++ plainType values
  layout.block (type ++ "\x7b")
    (labelled ": " (entries.map fun (key, value) => (Text.quote key, value))) "\x7d"

def list (layout : Layout) (input : Bool) (items : List String) (element : Ty) : String :=
  let type := if input then inputBase element ++ "Array" else "[]" ++ plainType element
  layout.list (type ++ "\x7b") items "\x7d"

def programInput : Bound.ProgramInput → String
  | .stack => "ctx.Stack()"
  | .project => "ctx.Project()"
  | .organization => "ctx.Organization()"
  | .cwd => "cwdOrPanic()"

def inputNeeds : Bound.ProgramInput → List Need
  | .cwd => [.imported .os, .helper .cwd]
  | _ => []

def outputStep : Accessor → String
  | .field "id" => ".ID()"
  | .field "urn" => ".URN()"
  | .field name => "." ++ Names.pascalCase name
  | .index position => s!".Index(pulumi.Int({position}))"
  | .key name => ".MapIndex(pulumi.String(" ++ Text.quote name ++ "))"

def liftedStep : Accessor → String
  | .field name => "." ++ Names.pascalCase name ++ "()"
  | .index position => s!".Index(pulumi.Int({position}))"
  | .key name => ".MapIndex(pulumi.String(" ++ Text.quote name ++ "))"

def plainStep : Accessor → String
  | .field name | .key name => "[" ++ Text.quote name ++ "]"
  | .index position => s!"[{position}]"

def access (path : Bound.Path) (root : String) : String :=
  if path.kind.isResource then
    match path.accessors with
    | [] => root
    | first :: rest => root ++ outputStep first ++ String.join (rest.map liftedStep)
  else root ++ String.join (path.accessors.map plainStep)

def call (builtin : Builtin) (args : List String) (result : Ty) : String :=
  let first := argument "nil" args 0
  let second := argument "nil" args 1
  match builtin with
  | .fileAsset => s!"pulumi.NewFileAsset({first})"
  | .stringAsset => s!"pulumi.NewStringAsset({first})"
  | .remoteAsset => s!"pulumi.NewRemoteAsset({first})"
  | .fileArchive => s!"pulumi.NewFileArchive({first})"
  | .remoteArchive => s!"pulumi.NewRemoteArchive({first})"
  | .assetArchive => s!"pulumi.NewAssetArchive({first})"
  | .readFile => s!"readFileOrPanic({first})"
  | .join => s!"strings.Join({second}, {first})"
  | .split => s!"strings.Split({second}, {first})"
  | .select => s!"{second}[{first}]"
  | .toJson => s!"toJSONOrPanic({first})"
  | .toBase64 => s!"base64.StdEncoding.EncodeToString([]byte({first}))"
  | .fromBase64 => s!"fromBase64OrPanic({first})"
  | .secret =>
    let cast := outputType result
    s!"pulumi.ToSecret({first}).({cast})"
  | .stackReference => s!"stackOutputOrPanic(ctx, {first}, {second})"

def callNeeds : Builtin → List Need
  | .readFile => [.imported .os, .helper .readFile]
  | .join | .split => [.imported .strings]
  | .toJson => [.imported .json, .helper .toJson]
  | .toBase64 => [.imported .base64]
  | .fromBase64 => [.imported .base64, .helper .fromBase64]
  | .stackReference => [.helper .stackOutput]
  | _ => []

/-- The name of a provider function. One that reads an existing resource is a lookup, because the
resource itself has a getter. -/
def functionName (parts : InvokeParts) : String :=
  match parts.readsResource, parts.token.name.toList with
  | true, 'g' :: 'e' :: 't' :: rest => "Lookup" ++ Names.pascalCase (String.ofList rest)
  | _, _ => Names.pascalCase parts.token.name

def invoke (layout : Layout) (parts : InvokeParts) : String :=
  let function := packageName parts.token ++ "." ++ functionName parts ++ "Output"
  let args := layout.block (function ++ "Args\x7b") (labelled ": " parts.args) "\x7d"
  let call := function ++ "(ctx, " ++ args ++ ")"
  match parts.field with
  | some field => call ++ "." ++ Names.pascalCase field ++ "()"
  | none => call

def binary (op : BinaryOp) (left right : String) : String :=
  let symbol := op.symbol
  s!"{left} {symbol} {right}"

def unary (op : UnaryOp) (operand : String) : String := op.symbol ++ operand

/-- Identities have types of their own; an apply takes them as strings. -/
def applySource (expr : Bound.Expr) (text : String) : String :=
  match expr with
  | .access ⟨_, _, [.field name]⟩ _ =>
    if name == "id" || name == "urn" then text ++ ".ToStringOutput()" else text
  | _ => text

def argumentLines (pad : String) (params : List (String × Ty)) : String :=
  String.join (params.zipIdx.map fun ((ident, ty), position) =>
    let type := plainType ty
    s!"{pad}{ident} := _args[{position}].({type})\n")

def apply (layout : Layout) (parts : ApplyParts) : String :=
  let result := plainType parts.bodyTy
  let cast := outputType parts.bodyTy
  let header :=
    match parts.single? with
    | some ((source, ty), ident) =>
      let type := plainType ty
      s!"{source}.ApplyT(func({ident} {type}) ({result}, error) \x7b\n"
    | none =>
      "pulumi.All(" ++ commaList (parts.sources.map Prod.fst) ++ ").ApplyT(func(_args []" ++ anyType
        ++ s!") ({result}, error) \x7b\n"
        ++ argumentLines layout.innerPad (parts.idents.zip (parts.sources.map Prod.snd))
  header ++ layout.innerPad ++ "return " ++ parts.body ++ ", nil\n" ++ layout.pad
    ++ s!"\x7d).({cast})"

/-! ## Statements -/

def configKind : ConfigType → String
  | .string => ""
  | .number => "Float64"
  | .int => "Int"
  | .boolean => "Bool"
  | .stringList | .object => "Object"

def objectType? : ConfigType → Option String
  | .stringList => some "[]string"
  | .object => some ("map[string]" ++ anyType)
  | _ => none

def configStatement (layout : Layout) (parts : ConfigParts) : String :=
  let ident := parts.ident
  let name := Text.quote parts.name
  let kind := configKind parts.type
  let pad := layout.pad
  let inner := layout.innerPad
  match parts.default, objectType? parts.type with
  | none, none =>
    if parts.secret then s!"{ident} := cfg.RequireSecret{kind}({name})"
    else s!"{ident} := cfg.Require{kind}({name})"
  | none, some type => s!"var {ident} {type}\n{pad}cfg.RequireObject({name}, &{ident})"
  | some default, some _ => s!"{ident} := {default}\n{pad}_ = cfg.TryObject({name}, &{ident})"
  | some default, none =>
    s!"{ident} := {default}\n{pad}if param, err := cfg.Try{kind}({name}); err == nil \x7b\n"
      ++ s!"{inner}{ident} = param\n{pad}\x7d"

def stringSlice (names : List String) : String :=
  "[]string\x7b" ++ commaList (names.map Text.quote) ++ "\x7d"

def optionWriter : OptionWriter where
  parent value := s!"pulumi.Parent({value})"
  dependsOn items := "pulumi.DependsOn([]pulumi.Resource\x7b" ++ commaList items ++ "\x7d)"
  protect value := s!"pulumi.Protect({value})"
  provider value := s!"pulumi.Provider({value})"
  ignoreChanges names := "pulumi.IgnoreChanges(" ++ stringSlice names ++ ")"
  aliases items :=
    "pulumi.Aliases([]pulumi.Alias\x7b"
      ++ commaList (items.map fun item => "\x7bURN: pulumi.URN(" ++ item ++ ")\x7d") ++ "\x7d)"
  deleteBeforeReplace value := s!"pulumi.DeleteBeforeReplace({value})"
  additionalSecretOutputs names := "pulumi.AdditionalSecretOutputs(" ++ stringSlice names ++ ")"
  customTimeouts entries :=
    "pulumi.Timeouts(&pulumi.CustomTimeouts\x7b"
      ++ commaList (entries.map fun (operation, time) =>
        Names.pascalCase operation ++ ": \"" ++ time ++ "\"")
      ++ "\x7d)"
  importId value := s!"pulumi.Import(pulumi.ID({value}))"
  version value := s!"pulumi.Version({value})"

/-- What a resource is assigned to. A resource that nothing reads has no name, and only the first
of those declares the error. -/
def assignment (parts : ResourceParts) : String :=
  if parts.referenced then parts.ident ++ ", err :="
  else if parts.isFirst then "_, err :="
  else "_, err ="

def resourceStatement (layout : Layout) (parts : ResourceParts) : String :=
  let package := packageName parts.token
  let name := parts.token.name
  let properties :=
    if parts.properties.isEmpty then "nil"
    else layout.block s!"&{package}.{name}Args\x7b" (labelled ": " parts.properties) "\x7d"
  let target := assignment parts
  let args :=
    commaList ("ctx" :: Text.quote parts.name :: properties :: optionWriter.items parts.options)
  let pad := layout.pad
  let inner := layout.innerPad
  s!"{target} {package}.New{name}({args})\n{pad}if err != nil \x7b\n{inner}return err\n{pad}\x7d"

def indentUnit : String := "\t"

def baseLevel : Nat := 2

def basePad : String := repeated indentUnit baseLevel

/-- A variable that nothing reads is discarded, as the language demands. -/
def variableStatement (ident value : String) (referenced : Bool) : String :=
  if referenced then s!"{ident} := {value}" else s!"{ident} := {value}\n{basePad}_ = {ident}"

/-! ## Programs -/

def helperSource : Helper → String
  | .readFile =>
    "func readFileOrPanic(path string) string \x7b\n\tdata, err := os.ReadFile(path)\n"
      ++ "\tif err != nil \x7b\n\t\tpanic(err.Error())\n\t\x7d\n\treturn string(data)\n\x7d"
  | .toJson =>
    "func toJSONOrPanic(value interface\x7b\x7d) string \x7b\n\tdata, err := json.Marshal(value)\n"
      ++ "\tif err != nil \x7b\n\t\tpanic(err.Error())\n\t\x7d\n\treturn string(data)\n\x7d"
  | .fromBase64 =>
    "func fromBase64OrPanic(value string) string \x7b\n"
      ++ "\tdata, err := base64.StdEncoding.DecodeString(value)\n"
      ++ "\tif err != nil \x7b\n\t\tpanic(err.Error())\n\t\x7d\n\treturn string(data)\n\x7d"
  | .cwd =>
    "func cwdOrPanic() string \x7b\n\tdir, err := os.Getwd()\n"
      ++ "\tif err != nil \x7b\n\t\tpanic(err.Error())\n\t\x7d\n\treturn dir\n\x7d"
  | .stackOutput =>
    "func stackOutputOrPanic(ctx *pulumi.Context, stack string, name string) "
      ++ "pulumi.AnyOutput \x7b\n"
      ++ "\tref, err := pulumi.NewStackReference(ctx, stack, nil)\n"
      ++ "\tif err != nil \x7b\n\t\tpanic(err.Error())\n\t\x7d\n"
      ++ "\treturn ref.GetOutput(pulumi.String(name))\n\x7d"

def standardPackage? : Import → Option String
  | .base64 => some "encoding/base64"
  | .json => some "encoding/json"
  | .format => some "fmt"
  | .os => some "os"
  | .strings => some "strings"
  | _ => none

def externalPackage? : Import → Option String
  | .provider package module => some (importPath package module)
  | .config => some "github.com/pulumi/pulumi/sdk/v3/go/pulumi/config"
  | _ => none

def importLines (packages : List String) : List String :=
  let quoted := packages.map fun package => "\"" ++ package ++ "\""
  (quoted.eraseDups.mergeSort fun left right => decide (left ≤ right)).map ("\t" ++ · ++ "\n")

def program (parts : ProgramParts) : String :=
  let imports := importsOf parts.needs
  let standard := importLines (imports.filterMap standardPackage?)
  let external :=
    importLines ("github.com/pulumi/pulumi/sdk/v3/go/pulumi" :: imports.filterMap externalPackage?)
  let config := if imports.contains .config then basePad ++ "cfg := config.New(ctx, \"\")\n" else ""
  "package main\n\nimport (\n" ++ String.join standard
    ++ (if standard.isEmpty then "" else "\n") ++ String.join external
    ++ ")\n\nfunc main() \x7b\n\tpulumi.Run(func(ctx *pulumi.Context) error \x7b\n" ++ config
    ++ String.join ((parts.statements ++ parts.outputs).map (basePad ++ · ++ "\n"))
    ++ basePad ++ "return nil\n\t\x7d)\n\x7d\n"
    ++ String.join ((helpersOf parts.needs).map fun helper => "\n" ++ helperSource helper ++ "\n")

def dialect : Dialect where
  target := .go
  indentUnit := indentUnit
  baseLevel := baseLevel
  outputLevel := baseLevel
  reserved := reserved
  identifier := identifier
  propertyName := Names.pascalCase
  namespaceRoot := packageName
  string := Text.quote
  boolean value := if value then "true" else "false"
  null := "nil"
  template := template
  templateNeeds := [.imported .format]
  struct := struct
  map := map
  list := list
  programInput := programInput
  inputNeeds := inputNeeds
  access := access
  call := call
  callNeeds := callNeeds
  invoke := invoke
  conditional _ _ _ := none
  binary := binary
  unary := unary
  applySource := applySource
  applyBinding _ ident := ident
  applyIndents _ _ := true
  apply := apply
  inlineStructs := false
  inputValue := inputValue
  comment text := "// " ++ text
  configStatement := configStatement
  configNeeds _ := [.imported .config]
  resourceStatement := resourceStatement
  variableStatement := variableStatement
  outputStatement name _ value := "ctx.Export(" ++ Text.quote name ++ ", " ++ value ++ ")"
  program := program

end Provision.Render.Go
