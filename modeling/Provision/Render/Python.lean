import Provision.Names.Case
import Provision.Render.Dialect

/-!
# Python

Snake-cased names, keyword arguments, and formatted strings for templates. A formatted string may
not hold a backslash, a number sign or a line break inside its braces, so a template with such an
expression becomes a join of its pieces.
-/

namespace Provision.Render.Python

def keywords : List String :=
  ["False", "None", "True", "and", "as", "assert", "async", "await", "break", "class", "continue",
    "def", "del", "elif", "else", "except", "finally", "for", "from", "global", "if", "import",
    "in", "is", "lambda", "nonlocal", "not", "or", "pass", "raise", "return", "try", "while",
    "with", "yield"]

def preamble : List String :=
  ["pulumi", "config", "json", "base64", "os", "open", "resolved_outputs"]

def reserved : List String := keywords ++ preamble

def packageAlias (package : String) : String := Names.snakeCase package

def identifier (name : String) : String := avoiding reserved (Names.snakeCase name)

def propertyName (name : String) : String := avoiding keywords (Names.snakeCase name)

def member (token : TypeToken) (name : String) : String :=
  let root := packageAlias token.package
  match token.modulePath with
  | some module => root ++ "." ++ Text.lower module ++ "." ++ name
  | none => root ++ "." ++ name

/-- One character of a literal. Between triple quotes a line break stands for itself, and in a
formatted string braces are doubled. -/
def escapeChar (triple braces : Bool) (c : Char) : List Char :=
  match c with
  | '\\' => ['\\', '\\']
  | '"' => ['\\', '"']
  | '\n' => if triple then ['\n'] else ['\\', 'n']
  | '\r' => ['\\', 'r']
  | '\t' => ['\\', 't']
  | '{' => if braces then ['{', '{'] else ['{']
  | '}' => if braces then ['}', '}'] else ['}']
  | c => if Text.isControl c then Text.escapeControl c else [c]

def escape (triple braces : Bool) (text : String) : List Char :=
  text.toList.flatMap (escapeChar triple braces)

def string (text : String) : String := String.ofList ('"' :: escape false false text ++ ['"'])

def needsJoin : Piece → Bool
  | .text _ => false
  | .code value => value.toList.any fun c => c == '\\' || c == '#' || c == '\n'

def needsTriple : Piece → Bool
  | .text value => value.toList.contains '\n'
  | .code value => value.toList.contains '"'

def joinedPiece : Piece → String
  | .text value => string value
  | .code value => "str(" ++ value ++ ")"

def formattedPiece (triple : Bool) : Piece → List Char
  | .text value => escape triple true value
  | .code value => '{' :: value.toList ++ ['}']

def template (layout : Layout) (pieces : List Piece) : String :=
  if pieces.any needsJoin then layout.list "\"\".join([" (pieces.map joinedPiece) "])"
  else
    let triple := pieces.any needsTriple
    let mark := if triple then ['"', '"', '"'] else ['"']
    String.ofList ('f' :: mark ++ pieces.flatMap (formattedPiece triple) ++ mark)

def map (layout : Layout) (entries : List (String × String)) : String :=
  layout.block "\x7b" (labelled ": " (entries.map fun (key, value) => (string key, value)))
    "\x7d"

def programInput : Bound.ProgramInput → String
  | .stack => "pulumi.get_stack()"
  | .project => "pulumi.get_project()"
  | .organization => "pulumi.get_organization()"
  | .cwd => "os.getcwd()"

def inputNeeds : Bound.ProgramInput → List Need
  | .cwd => [.imported .os]
  | _ => []

def accessStep (attributes : Bool) : Accessor → String
  | .field name => if attributes then "." ++ propertyName name else "[" ++ string name ++ "]"
  | .key name => "[" ++ string name ++ "]"
  | .index position => s!"[{position}]"

def access (path : Bound.Path) (root : String) : String :=
  root ++ String.join (path.accessors.map (accessStep path.kind.isResource))

def call (builtin : Builtin) (args : List String) (_ : Ty) : String :=
  let first := argument "None" args 0
  let second := argument "None" args 1
  match builtin with
  | .fileAsset => s!"pulumi.FileAsset({first})"
  | .stringAsset => s!"pulumi.StringAsset({first})"
  | .remoteAsset => s!"pulumi.RemoteAsset({first})"
  | .fileArchive => s!"pulumi.FileArchive({first})"
  | .remoteArchive => s!"pulumi.RemoteArchive({first})"
  | .assetArchive => s!"pulumi.AssetArchive({first})"
  | .readFile => s!"open({first}).read()"
  | .join => s!"{first}.join({second})"
  | .split => s!"{second}.split({first})"
  | .select => s!"{second}[{first}]"
  | .toJson => s!"json.dumps({first})"
  | .toBase64 => s!"base64.b64encode({first}.encode()).decode()"
  | .fromBase64 => s!"base64.b64decode({first}.encode()).decode()"
  | .secret => s!"pulumi.Output.secret({first})"
  | .stackReference => s!"pulumi.StackReference({first}).get_output({second})"

def callNeeds : Builtin → List Need
  | .toJson => [.imported .json]
  | .toBase64 | .fromBase64 => [.imported .base64]
  | _ => []

def invoke (layout : Layout) (parts : InvokeParts) : String :=
  let function := member parts.token (Names.snakeCase parts.token.name ++ "_output")
  let call := layout.block (function ++ "(") (labelled "=" parts.args) ")"
  match parts.field with
  | some field => call ++ "." ++ propertyName field
  | none => call

def binary (op : BinaryOp) (left right : String) : String :=
  let symbol :=
    match op with
    | .and => "and"
    | .or => "or"
    | other => other.symbol
  s!"{left} {symbol} {right}"

def unary (op : UnaryOp) (operand : String) : String :=
  match op with
  | .not => "not " ++ operand
  | .negate => "-" ++ operand

/-- Several values reach the body in one dictionary. -/
def applyBinding (single : Bool) (ident : String) : String :=
  if single then ident else s!"resolved_outputs['{ident}']"

def apply (_ : Layout) (parts : ApplyParts) : String :=
  let body := parts.body
  match parts.single? with
  | some ((source, _), ident) => s!"{source}.apply(lambda {ident}: {body})"
  | none =>
    let values := commaList (labelled "=" (parts.idents.zip (parts.sources.map Prod.fst)))
    s!"pulumi.Output.all({values}).apply(lambda resolved_outputs: {body})"

def configMethod (type : ConfigType) (secret required : Bool) : String :=
  (if required then "require" else "get") ++ (if secret then "_secret" else "")
    ++ match type with
      | .string => ""
      | .number => "_float"
      | .int => "_int"
      | .boolean => "_bool"
      | .stringList | .object => "_object"

def configStatement (_ : Layout) (parts : ConfigParts) : String :=
  let read (required : Bool) :=
    parts.ident ++ " = config." ++ configMethod parts.type parts.secret required ++ "("
      ++ string parts.name ++ ")"
  match parts.default with
  | none => read true
  | some default =>
    if parts.secret then read false ++ " or pulumi.Output.secret(" ++ default ++ ")"
    else read false ++ " or " ++ default

def bracketed (items : List String) : String := "[" ++ commaList items ++ "]"

def propertyList (names : List String) : String :=
  bracketed (names.map fun name => "\"" ++ Names.snakeCase name ++ "\"")

def optionWriter : OptionWriter where
  parent value := "parent=" ++ value
  dependsOn items := "depends_on=" ++ bracketed items
  protect value := "protect=" ++ value
  provider value := "provider=" ++ value
  ignoreChanges names := "ignore_changes=" ++ propertyList names
  aliases items := "aliases=" ++ bracketed items
  deleteBeforeReplace value := "delete_before_replace=" ++ value
  additionalSecretOutputs names := "additional_secret_outputs=" ++ propertyList names
  customTimeouts entries :=
    "custom_timeouts=pulumi.CustomTimeouts("
      ++ commaList (entries.map fun (operation, time) => operation ++ "=" ++ string time) ++ ")"
  importId value := "import_=" ++ value
  version value := "version=" ++ value

def options (layout : Layout) (options : Bound.Options String) : List String :=
  if options.isEmpty then []
  else ["opts=" ++ layout.list "pulumi.ResourceOptions(" (optionWriter.items options) ")"]

def resourceStatement (layout : Layout) (parts : ResourceParts) : String :=
  let items :=
    string parts.name :: labelled "=" parts.properties ++ options layout parts.options
  parts.ident ++ " = " ++ layout.block (member parts.token parts.token.name ++ "(") items ")"

def importLine? : Import → Option String
  | .base64 => some "import base64"
  | .json => some "import json"
  | .os => some "import os"
  | _ => none

def packageLine (package : String) : String :=
  let root := packageAlias package
  s!"import pulumi_{root} as {root}"

def program (parts : ProgramParts) : String :=
  let imports := importsOf parts.needs
  let lines :=
    imports.filterMap importLine? ++ ["import pulumi"]
      ++ (packagesOf parts.needs).map packageLine
  let config := if imports.contains .config then "config = pulumi.Config()\n" else ""
  "\n".intercalate lines ++ "\n\n" ++ config
    ++ String.join ((parts.statements ++ parts.outputs).map (· ++ "\n"))

def dialect : Dialect where
  target := .python
  indentUnit := "    "
  baseLevel := 0
  outputLevel := 0
  reserved := reserved
  identifier := identifier
  propertyName := propertyName
  namespaceRoot token := packageAlias token.package
  string
  boolean value := if value then "True" else "False"
  null := "None"
  template := template
  templateNeeds := []
  struct layout token fields :=
    layout.block (member token (token.name ++ "Args") ++ "(") (labelled "=" fields) ")"
  map layout _ entries _ := map layout entries
  list layout _ items _ := layout.list "[" items "]"
  programInput := programInput
  inputNeeds := inputNeeds
  access := access
  call := call
  callNeeds := callNeeds
  invoke := invoke
  conditional condition accepted rejected := some s!"{accepted} if {condition} else {rejected}"
  binary := binary
  unary := unary
  applySource _ text := text
  applyBinding := applyBinding
  applyIndents _ _ := false
  apply := apply
  inlineStructs := true
  inputValue _ text := text
  comment text := "# " ++ text
  configStatement := configStatement
  configNeeds _ := [.imported .config]
  resourceStatement := resourceStatement
  variableStatement ident value _ := s!"{ident} = {value}"
  outputStatement name _ value := "pulumi.export(" ++ string name ++ ", " ++ value ++ ")"
  program := program

end Provision.Render.Python
