import Provision.Names.Case
import Provision.Render.Dialect

/-!
# TypeScript

Camel-cased names, object literals, and template literals. In the text of a template literal a
backslash, a backtick and a dollar sign before a brace are escaped; all else stands for itself.
-/

namespace Provision.Render.TypeScript

def keywords : List String :=
  ["break", "case", "catch", "class", "const", "continue", "debugger", "default", "delete", "do",
    "else", "enum", "export", "extends", "false", "finally", "for", "function", "if", "import",
    "in", "instanceof", "new", "null", "return", "super", "switch", "this", "throw", "true", "try",
    "typeof", "var", "void", "while", "with", "as", "implements", "interface", "let", "package",
    "private", "protected", "public", "static", "yield", "any", "boolean", "number", "string",
    "symbol", "type", "from", "of", "await", "async"]

def preamble : List String := ["pulumi", "config", "fs", "Buffer", "JSON", "process", "args"]

def reserved : List String := keywords ++ preamble

def packageAlias (package : String) : String := Names.snakeCase package

def identifier (name : String) : String := avoiding reserved (Names.camelCase name)

def isIdentifierStart (c : Char) : Bool := c.isAlpha || c == '_' || c == '$'

def isIdentifierPart (c : Char) : Bool := c.isAlphanum || c == '_' || c == '$'

def isIdentifier (name : String) : Bool :=
  match name.toList with
  | [] => false
  | first :: rest => isIdentifierStart first && rest.all isIdentifierPart

def objectKey (key : String) : String := if isIdentifier key then key else Text.quote key

def memberAccess (name : String) : String :=
  if isIdentifier name then "." ++ name else "[" ++ Text.quote name ++ "]"

def member (token : TypeToken) (name : String) : String :=
  let root := packageAlias token.package
  match token.modulePath with
  | some module => root ++ "." ++ Text.lower module ++ "." ++ name
  | none => root ++ "." ++ name

def backtick : Char := '\x60'

def escapeTemplate : List Char → List Char
  | [] => []
  | c :: rest =>
    if c == '\\' || c == backtick then '\\' :: c :: escapeTemplate rest
    else if c == '$' && rest.head? == some '{' then '\\' :: '$' :: escapeTemplate rest
    else c :: escapeTemplate rest

def templatePiece : Piece → List Char
  | .text value => escapeTemplate value.toList
  | .code value => '$' :: '{' :: value.toList ++ ['}']

def template (_ : Layout) (pieces : List Piece) : String :=
  String.ofList (backtick :: pieces.flatMap templatePiece ++ [backtick])

def object (layout : Layout) (members : List (String × String)) : String :=
  layout.block "\x7b" (labelled ": " members) "\x7d"

def programInput : Bound.ProgramInput → String
  | .stack => "pulumi.getStack()"
  | .project => "pulumi.getProject()"
  | .organization => "pulumi.getOrganization()"
  | .cwd => "process.cwd()"

def accessStep : Accessor → String
  | .field name => memberAccess name
  | .key name => "[" ++ Text.quote name ++ "]"
  | .index position => s!"[{position}]"

def access (path : Bound.Path) (root : String) : String :=
  root ++ String.join (path.accessors.map accessStep)

def call (builtin : Builtin) (args : List String) (_ : Ty) : String :=
  let first := argument "undefined" args 0
  let second := argument "undefined" args 1
  match builtin with
  | .fileAsset => s!"new pulumi.asset.FileAsset({first})"
  | .stringAsset => s!"new pulumi.asset.StringAsset({first})"
  | .remoteAsset => s!"new pulumi.asset.RemoteAsset({first})"
  | .fileArchive => s!"new pulumi.asset.FileArchive({first})"
  | .remoteArchive => s!"new pulumi.asset.RemoteArchive({first})"
  | .assetArchive => s!"new pulumi.asset.AssetArchive({first})"
  | .readFile => s!"fs.readFileSync({first}, \"utf8\")"
  | .join => s!"{second}.join({first})"
  | .split => s!"{second}.split({first})"
  | .select => s!"{second}[{first}]"
  | .toJson => s!"JSON.stringify({first})"
  | .toBase64 => s!"Buffer.from({first}).toString(\"base64\")"
  | .fromBase64 => s!"Buffer.from({first}, \"base64\").toString(\"utf8\")"
  | .secret => s!"pulumi.secret({first})"
  | .stackReference => s!"new pulumi.StackReference({first}).getOutput({second})"

def callNeeds : Builtin → List Need
  | .readFile => [.imported .files]
  | _ => []

def invoke (layout : Layout) (parts : InvokeParts) : String :=
  let function := member parts.token (Names.camelCase parts.token.name ++ "Output")
  let args := if parts.args.isEmpty then "" else object layout parts.args
  function ++ "(" ++ args ++ ")" ++ (parts.field.map memberAccess).getD ""

def binary (op : BinaryOp) (left right : String) : String :=
  let symbol :=
    match op with
    | .eq => "==="
    | .notEq => "!=="
    | other => other.symbol
  s!"{left} {symbol} {right}"

def unary (op : UnaryOp) (operand : String) : String := op.symbol ++ operand

/-- An object literal as the body of a function is put in parentheses. -/
def functionBody (body : String) : String :=
  if body.toList.head? == some '{' then "(" ++ body ++ ")" else body

def apply (_ : Layout) (parts : ApplyParts) : String :=
  let body := functionBody parts.body
  match parts.single? with
  | some ((source, _), ident) => s!"{source}.apply({ident} => {body})"
  | none =>
    let sources := commaList (parts.sources.map Prod.fst)
    let idents := commaList parts.idents
    s!"pulumi.all([{sources}]).apply(([{idents}]) => {body})"

def configMethod (type : ConfigType) (secret required : Bool) : String :=
  (if required then "require" else "get") ++ (if secret then "Secret" else "")
    ++ match type with
      | .string => ""
      | .number | .int => "Number"
      | .boolean => "Boolean"
      | .stringList => "Object<string[]>"
      | .object => "Object<any>"

def configStatement (_ : Layout) (parts : ConfigParts) : String :=
  let read (required : Bool) :=
    "const " ++ parts.ident ++ " = config." ++ configMethod parts.type parts.secret required ++ "("
      ++ Text.quote parts.name ++ ")"
  match parts.default with
  | none => read true ++ ";"
  | some default =>
    if parts.secret then read false ++ " ?? pulumi.secret(" ++ default ++ ");"
    else read false ++ " ?? " ++ default ++ ";"

def bracketed (items : List String) : String := "[" ++ commaList items ++ "]"

def optionWriter : OptionWriter where
  parent value := "parent: " ++ value
  dependsOn items := "dependsOn: " ++ bracketed items
  protect value := "protect: " ++ value
  provider value := "provider: " ++ value
  ignoreChanges names := "ignoreChanges: " ++ bracketed (names.map Text.quote)
  aliases items := "aliases: " ++ bracketed items
  deleteBeforeReplace value := "deleteBeforeReplace: " ++ value
  additionalSecretOutputs names := "additionalSecretOutputs: " ++ bracketed (names.map Text.quote)
  customTimeouts entries :=
    "customTimeouts: \x7b "
      ++ commaList (entries.map fun (operation, time) => operation ++ ": \"" ++ time ++ "\"")
      ++ " \x7d"
  importId value := "import: " ++ value
  version value := "version: " ++ value

def options (layout : Layout) (options : Bound.Options String) : List String :=
  if options.isEmpty then [] else [layout.block "\x7b" (optionWriter.items options) "\x7d"]

def resourceStatement (layout : Layout) (parts : ResourceParts) : String :=
  let args :=
    Text.quote parts.name :: object layout parts.properties :: options layout parts.options
  "const " ++ parts.ident ++ " = new " ++ member parts.token parts.token.name ++ "("
    ++ commaList args ++ ");"

def packageLine (package : String) : String :=
  let root := packageAlias package
  s!"import * as {root} from \"@pulumi/{package}\";"

def program (parts : ProgramParts) : String :=
  let imports := importsOf parts.needs
  let lines :=
    "import * as pulumi from \"@pulumi/pulumi\";" :: (packagesOf parts.needs).map packageLine
      ++ if imports.contains .files then ["import * as fs from \"fs\";"] else []
  let config := if imports.contains .config then "const config = new pulumi.Config();\n" else ""
  "\n".intercalate lines ++ "\n\n" ++ config
    ++ String.join ((parts.statements ++ parts.outputs).map (· ++ "\n"))

def dialect : Dialect where
  target := .typeScript
  indentUnit := "    "
  baseLevel := 0
  outputLevel := 0
  reserved := reserved
  identifier := identifier
  propertyName := Names.camelCase
  namespaceRoot token := packageAlias token.package
  string := Text.quote
  boolean value := if value then "true" else "false"
  null := "undefined"
  template := template
  templateNeeds := []
  struct layout _ fields := object layout fields
  map layout _ entries _ := object layout (entries.map fun (key, value) => (objectKey key, value))
  list layout _ items _ := layout.list "[" items "]"
  programInput := programInput
  inputNeeds _ := []
  access := access
  call := call
  callNeeds := callNeeds
  invoke := invoke
  conditional condition accepted rejected := some s!"{condition} ? {accepted} : {rejected}"
  binary := binary
  unary := unary
  applySource _ text := text
  applyBinding _ ident := ident
  applyIndents _ _ := false
  apply := apply
  inlineStructs := false
  inputValue _ text := text
  comment text := "// " ++ text
  configStatement := configStatement
  configNeeds _ := [.imported .config]
  resourceStatement := resourceStatement
  variableStatement ident value _ := s!"const {ident} = {value};"
  outputStatement _ ident value := s!"export const {ident} = {value};"
  program := program

end Provision.Render.TypeScript
