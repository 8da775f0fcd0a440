import Provision.Duration
import Provision.Names.Case
import Provision.Render.Dialect

/-!
# C#

Pascal-cased properties, object initializers, and interpolated strings. A tuple of eventual values
holds at most eight of them; beyond that one value is resolved inside the other.
-/

namespace Provision.Render.CSharp

def keywords : List String :=
  ["abstract", "as", "base", "bool", "break", "byte", "case", "catch", "char", "checked", "class",
    "const", "continue", "decimal", "default", "delegate", "do", "double", "else", "enum", "event",
    "explicit", "extern", "false", "finally", "fixed", "float", "for", "foreach", "goto", "if",
    "implicit", "in", "int", "interface", "internal", "is", "lock", "long", "namespace", "new",
    "null", "object", "operator", "out", "override", "params", "private", "protected", "public",
    "readonly", "ref", "return", "sbyte", "sealed", "short", "sizeof", "stackalloc", "static",
    "string", "struct", "switch", "this", "throw", "true", "try", "typeof", "uint", "ulong",
    "unchecked", "unsafe", "ushort", "using", "virtual", "void", "volatile", "while", "var",
    "await", "async"]

def preamble : List String :=
  ["config", "values", "o", "Pulumi", "Output", "Deployment", "File", "Convert", "Encoding"]

def reserved : List String := keywords ++ preamble

def packageAlias (package : String) : String := Names.pascalCase package

def identifier (name : String) : String := avoiding reserved (Names.camelCase name)

def moduleNamespace (token : TypeToken) : String :=
  let root := packageAlias token.package
  match token.modulePath with
  | some module => root ++ "." ++ Names.pascalCase module
  | none => root

def argsClass (token : TypeToken) : String :=
  moduleNamespace token ++ ".Inputs." ++ token.name ++ "Args"

def indentUnit : String := "    "

def openBrace (layout : Layout) : String := "\n" ++ layout.pad ++ "\x7b"

/-- The type of the members of a collection; the flag tells that it stands where an input is
expected. -/
def elementType (input : Bool) (ty : Ty) : String :=
  match ty.resolved with
  | .string => "string"
  | .int => "int"
  | .number => "double"
  | .bool => "bool"
  | .asset | .archive => "AssetOrArchive"
  | .object token =>
    if input then ((TypeToken.ofText? token).map argsClass).getD "object" else "object?"
  | _ => if input then "object" else "object?"

def escapeInterpolated (text : String) : List Char :=
  Text.double '}' (Text.double '{' (Text.escape text.toList))

def hasConditional : List Char → Bool
  | ' ' :: '?' :: ' ' :: _ => true
  | _ :: rest => hasConditional rest
  | [] => false

def templatePiece : Piece → List Char
  | .text value => escapeInterpolated value
  | .code value =>
    if hasConditional value.toList then '{' :: '(' :: value.toList ++ [')', '}']
    else '{' :: value.toList ++ ['}']

def template (_ : Layout) (pieces : List Piece) : String :=
  String.ofList ('$' :: '"' :: pieces.flatMap templatePiece ++ ['"'])

def struct (layout : Layout) (token : TypeToken) (fields : List (String × String)) : String :=
  layout.block ("new " ++ argsClass token ++ openBrace layout) (labelled " = " fields) "\x7d"

def isAsset (ty : Ty) : Bool :=
  match ty.resolved with
  | .asset | .archive => true
  | _ => false

def map (layout : Layout) (input : Bool) (entries : List (String × String)) (values : Ty) :
    String :=
  let type :=
    if input && !isAsset values then "InputMap<" ++ elementType true values ++ ">"
    else "Dictionary<string, " ++ elementType false values ++ ">"
  layout.block ("new " ++ type ++ openBrace layout)
    (entries.map fun (key, value) => "[" ++ Text.quote key ++ "] = " ++ value) "\x7d"

def withoutMark (type : String) : String :=
  String.ofList (type.toList.reverse.dropWhile (· == '?')).reverse

def list (layout : Layout) (input : Bool) (items : List String) (element : Ty) : String :=
  if items.isEmpty then "new " ++ withoutMark (elementType input element) ++ "[] \x7b\x7d"
  else if fitsOnLine items then "new[] \x7b " ++ commaList items ++ " \x7d"
  else layout.block ("new[]" ++ openBrace layout) items "\x7d"

def programInput : Bound.ProgramInput → String
  | .stack => "Deployment.Instance.StackName"
  | .project => "Deployment.Instance.ProjectName"
  | .organization => "Deployment.Instance.OrganizationName"
  | .cwd => "Directory.GetCurrentDirectory()"

def inputNeeds : Bound.ProgramInput → List Need
  | .cwd => [.imported .files]
  | _ => []

def accessStep (resource : Bool) : Accessor → String
  | .field name =>
    if resource then "." ++ Names.pascalCase name else "[" ++ Text.quote name ++ "]"
  | .key name => "[" ++ Text.quote name ++ "]"
  | .index position => s!"[{position}]"

/-- Beyond the first step into a resource the value has to be resolved. -/
def access (path : Bound.Path) (root : String) : String :=
  let steps := path.accessors.map (accessStep path.kind.isResource)
  if path.kind.isResource then
    let lifted := String.join (steps.drop 1)
    let value := root ++ String.join (steps.take 1)
    if lifted.isEmpty then value else s!"{value}.Apply(o => o{lifted})"
  else root ++ String.join steps

def call (builtin : Builtin) (args : List String) (_ : Ty) : String :=
  let first := argument "null" args 0
  let second := argument "null" args 1
  match builtin with
  | .fileAsset => s!"new FileAsset({first})"
  | .stringAsset => s!"new StringAsset({first})"
  | .remoteAsset => s!"new RemoteAsset({first})"
  | .fileArchive => s!"new FileArchive({first})"
  | .remoteArchive => s!"new RemoteArchive({first})"
  | .assetArchive => s!"new AssetArchive({first})"
  | .readFile => s!"File.ReadAllText({first})"
  | .join => s!"string.Join({first}, {second})"
  | .split => s!"{second}.Split({first})"
  | .select => s!"{second}[{first}]"
  | .toJson => s!"JsonSerializer.Serialize({first})"
  | .toBase64 => s!"Convert.ToBase64String(Encoding.UTF8.GetBytes({first}))"
  | .fromBase64 => s!"Encoding.UTF8.GetString(Convert.FromBase64String({first}))"
  | .secret => s!"Output.CreateSecret({first})"
  | .stackReference => s!"new StackReference({first}).GetOutput({second})"

def callNeeds : Builtin → List Need
  | .readFile => [.imported .files]
  | .toJson => [.imported .json]
  | .toBase64 | .fromBase64 => [.imported .base64]
  | _ => []

def invoke (layout : Layout) (parts : InvokeParts) : String :=
  let function := moduleNamespace parts.token ++ "." ++ Names.pascalCase parts.token.name
  let call :=
    if parts.args.isEmpty then function ++ ".Invoke()"
    else
      layout.block (function ++ ".Invoke(new()" ++ openBrace layout) (labelled " = " parts.args)
        "\x7d)"
  match parts.field with
  | some field => call ++ ".Apply(o => o." ++ Names.pascalCase field ++ ")"
  | none => call

def binary (op : BinaryOp) (left right : String) : String :=
  let symbol := op.symbol
  s!"{left} {symbol} {right}"

def unary (op : UnaryOp) (operand : String) : String := op.symbol ++ operand

def tupleLimit : Nat := 8

def applyIndents (single : Bool) (values : Nat) : Bool := !single && values ≤ tupleLimit

def nested (body : String) : List (String × String) → String
  | [] => body
  | (source, ident) :: rest =>
    let inner := nested body rest
    s!"{source}.Apply({ident} => {inner})"

def tupleLines (pad : String) (idents : List String) : String :=
  String.join (idents.zipIdx.map fun (ident, position) =>
    let number := position + 1
    s!"{pad}var {ident} = values.Item{number};\n")

def apply (layout : Layout) (parts : ApplyParts) : String :=
  let body := parts.body
  let sources := parts.sources.map Prod.fst
  match parts.single? with
  | some ((source, _), ident) => s!"{source}.Apply({ident} => {body})"
  | none =>
    if sources.length > tupleLimit then nested body (sources.zip parts.idents)
    else
      "Output.Tuple(" ++ commaList sources ++ ").Apply(values =>" ++ openBrace layout ++ "\n"
        ++ tupleLines layout.innerPad parts.idents ++ layout.innerPad ++ "return " ++ body ++ ";\n"
        ++ layout.pad ++ "\x7d)"

def configMethod (type : ConfigType) (secret required : Bool) : String :=
  (if required then "Require" else "Get") ++ (if secret then "Secret" else "")
    ++ match type with
      | .string => ""
      | .number => "Double"
      | .int => "Int32"
      | .boolean => "Boolean"
      | .stringList => "Object<string[]>"
      | .object => "Object<JsonElement>"

def configStatement (_ : Layout) (parts : ConfigParts) : String :=
  let read (required : Bool) :=
    "var " ++ parts.ident ++ " = config." ++ configMethod parts.type parts.secret required ++ "("
      ++ Text.quote parts.name ++ ")"
  match parts.default with
  | none => read true ++ ";"
  | some default =>
    if parts.secret then read false ++ " ?? Output.CreateSecret(" ++ default ++ ");"
    else read false ++ " ?? " ++ default ++ ";"

def configNeeds : ConfigType → List Need
  | .object => [.imported .config, .imported .json]
  | _ => [.imported .config]

def braced (items : List String) : String := "\x7b " ++ commaList items ++ " \x7d"

def timeSpan (duration : String) : String :=
  match Duration.seconds? duration with
  | some seconds => s!"System.TimeSpan.FromSeconds({seconds})"
  | none => "null"

def optionWriter : OptionWriter where
  parent value := "Parent = " ++ value
  dependsOn items := "DependsOn = " ++ braced items
  protect value := "Protect = " ++ value
  provider value := "Provider = " ++ value
  ignoreChanges names := "IgnoreChanges = " ++ braced (names.map Text.quote)
  aliases items :=
    "Aliases = " ++ braced (items.map fun item => "new Alias " ++ braced ["Urn = " ++ item])
  deleteBeforeReplace value := "DeleteBeforeReplace = " ++ value
  additionalSecretOutputs names := "AdditionalSecretOutputs = " ++ braced (names.map Text.quote)
  customTimeouts entries :=
    "CustomTimeouts = new CustomTimeouts "
      ++ braced (entries.map fun (operation, time) =>
        Names.pascalCase operation ++ " = " ++ timeSpan time)
  importId value := "ImportId = " ++ value
  version value := "Version = " ++ value

def options (layout : Layout) (options : Bound.Options String) : List String :=
  if options.isEmpty then []
  else
    [layout.block ("new CustomResourceOptions" ++ openBrace layout) (optionWriter.items options)
      "\x7d"]

def resourceStatement (layout : Layout) (parts : ResourceParts) : String :=
  let class_ := moduleNamespace parts.token ++ "." ++ parts.token.name
  let options := options layout parts.options
  let args :=
    if !parts.properties.isEmpty then
      [layout.block ("new()" ++ openBrace layout) (labelled " = " parts.properties) "\x7d"]
    else if !options.isEmpty then ["new " ++ class_ ++ "Args()"]
    else []
  "var " ++ parts.ident ++ " = new " ++ class_ ++ "("
    ++ commaList (Text.quote parts.name :: args ++ options) ++ ");"

def usingLine? : Import → Option String
  | .files => some "using System.IO;"
  | .json => some "using System.Text.Json;"
  | .base64 => some "using System.Text;"
  | _ => none

def packageLine (package : String) : String :=
  let root := packageAlias package
  s!"using {root} = Pulumi.{root};"

def program (parts : ProgramParts) : String :=
  let imports := importsOf parts.needs
  let lines :=
    "using System.Collections.Generic;" :: imports.filterMap usingLine? ++ ["using Pulumi;"]
      ++ (packagesOf parts.needs).map packageLine
  let config :=
    if imports.contains .config then indentUnit ++ "var config = new Config();\n" else ""
  "\n".intercalate lines ++ "\n\nreturn await Deployment.RunAsync(() =>\n\x7b\n" ++ config
    ++ String.join (parts.statements.map (indentUnit ++ · ++ "\n"))
    ++ "\n" ++ indentUnit ++ "return new Dictionary<string, object?>\n" ++ indentUnit ++ "\x7b\n"
    ++ String.join (parts.outputs.map (indentUnit ++ indentUnit ++ · ++ ",\n"))
    ++ indentUnit ++ "\x7d;\n\x7d);\n"

def dialect : Dialect where
  target := .csharp
  indentUnit := indentUnit
  baseLevel := 1
  outputLevel := 2
  reserved := reserved
  identifier := identifier
  propertyName := Names.pascalCase
  namespaceRoot token := packageAlias token.package
  string := Text.quote
  boolean value := if value then "true" else "false"
  null := "null"
  template := template
  templateNeeds := []
  struct := struct
  map := map
  list := list
  programInput := programInput
  inputNeeds := inputNeeds
  access := access
  call := call
  callNeeds := callNeeds
  invoke := invoke
  conditional condition accepted rejected := some s!"{condition} ? {accepted} : {rejected}"
  binary := binary
  unary := unary
  applySource _ text := text
  applyBinding _ ident := ident
  applyIndents := applyIndents
  apply := apply
  inlineStructs := false
  inputValue _ text := text
  comment text := "// " ++ text
  configStatement := configStatement
  configNeeds := configNeeds
  resourceStatement := resourceStatement
  variableStatement ident value _ := s!"var {ident} = {value};"
  outputStatement name _ value := "[" ++ Text.quote name ++ "] = " ++ value
  program := program

end Provision.Render.CSharp
