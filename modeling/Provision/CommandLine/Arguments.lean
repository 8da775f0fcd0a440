import Provision.Batch
import Provision.Settings

/-!
# Arguments

What the command line asks for. Arguments are read from left to right; the first that is wrong, or
that asks for help, decides.
-/

namespace Provision.CommandLine

inductive Topic where
  | program
  | convert
  | targets
  | help
  deriving DecidableEq, Repr

structure ConvertArguments where
  templates : List String := []
  overrides : Settings.Overrides := {}
  config : Option String := none
  keepGoing : Bool := false
  deriving DecidableEq, Repr

inductive Command where
  | convert (arguments : ConvertArguments)
  | targets
  | help (topic : Topic)
  | version
  deriving DecidableEq, Repr

inductive UsageFault where
  | missingCommand
  | unknownCommand (name : String)
  | unexpected (argument : String)
  | missingValue (option : String)
  | unexpectedValue (option : String)
  | invalidValue (option value : String)
  | repeated (option : String)
  | missingTemplates
  deriving DecidableEq, Repr

def UsageFault.message : UsageFault → String
  | .missingCommand => "a command is required"
  | .unknownCommand name => s!"unrecognized command '{name}'"
  | .unexpected argument => s!"unexpected argument '{argument}' found"
  | .missingValue option => s!"a value is required for '{option}'"
  | .unexpectedValue option => s!"no value is expected for '{option}'"
  | .invalidValue option value => s!"invalid value '{value}' for '{option}'"
  | .repeated option => s!"'{option}' cannot be used more than once"
  | .missingTemplates => "at least one template is required"

inductive Setting where
  | target
  | schema
  | out
  | jobs
  | config
  deriving DecidableEq, Repr

inductive Switch where
  | keepGoing
  | help
  | version
  deriving DecidableEq, Repr

inductive Key where
  | setting (setting : Setting)
  | switch (switch : Switch)
  deriving DecidableEq, Repr

structure Keys where
  long : List (String × Key)
  short : List (Char × Key)

def helpKeys : Keys where
  long := [("help", .switch .help)]
  short := [('h', .switch .help)]

def programKeys : Keys where
  long := ("version", .switch .version) :: helpKeys.long
  short := ('V', .switch .version) :: helpKeys.short

def convertKeys : Keys where
  long :=
    [("target", .setting .target), ("schema", .setting .schema), ("out", .setting .out),
      ("jobs", .setting .jobs), ("config", .setting .config),
      ("keep-going", .switch .keepGoing)] ++ helpKeys.long
  short :=
    [('t', .setting .target), ('s', .setting .schema), ('o', .setting .out),
      ('j', .setting .jobs)] ++ helpKeys.short

def Setting.name : Setting → String
  | .target => "--target"
  | .schema => "--schema"
  | .out => "--out"
  | .jobs => "--jobs"
  | .config => "--config"

inductive Word where
  | divider
  | long (name : String) (value : Option String)
  | short (letters : List Char)
  | plain (text : String)
  deriving DecidableEq, Repr

def Word.ofArgument (argument : String) : Word :=
  match argument.toList with
  | ['-', '-'] => .divider
  | '-' :: '-' :: text =>
    let name := String.ofList (text.takeWhile (· != '='))
    match text.dropWhile (· != '=') with
    | _ :: value => .long name (some (String.ofList value))
    | [] => .long name none
  | '-' :: letter :: letters => .short (letter :: letters)
  | _ => .plain argument

def maxJobs : Nat := Nat.pow 2 64 - 1

def number? (text : String) : Option Nat :=
  let digits :=
    match text.toList with
    | '+' :: digits => digits
    | digits => digits
  if digits.isEmpty || !digits.all Char.isDigit then none
  else
    let value := Nat.ofDigitChars 10 digits 0
    if value ≤ maxJobs then some value else none

namespace ConvertArguments

def set (arguments : ConvertArguments) (setting : Setting) (value : String) :
    Except UsageFault ConvertArguments :=
  let given := arguments.overrides
  let once (missing : Bool) (result : ConvertArguments) : Except UsageFault ConvertArguments :=
    if missing then .ok result else .error (.repeated setting.name)
  let path (result : Except UsageFault ConvertArguments) : Except UsageFault ConvertArguments :=
    if value.isEmpty then .error (.invalidValue setting.name value) else result
  match setting with
  | .target =>
    once given.targets.isNone { arguments with overrides.targets := some value }
  | .schema => path (.ok { arguments with overrides.schemas := given.schemas ++ [value] })
  | .out => path (once given.outDir.isNone { arguments with overrides.outDir := some value })
  | .config => path (once arguments.config.isNone { arguments with config := some value })
  | .jobs =>
    match number? value with
    | none => .error (.invalidValue setting.name value)
    | some jobs => once given.jobs.isNone { arguments with overrides.jobs := some jobs }

def addTemplate (arguments : ConvertArguments) (path : String) :
    Except UsageFault ConvertArguments :=
  if path.isEmpty then .error (.invalidValue "<TEMPLATES>..." path)
  else .ok { arguments with templates := arguments.templates ++ [path] }

end ConvertArguments

structure Progress where
  arguments : ConvertArguments := {}
  waiting : Option Setting := none

inductive Stop where
  | fault (fault : UsageFault)
  | command (command : Command)

def Progress.set (progress : Progress) (setting : Setting) (value : String) :
    Except Stop Progress :=
  match progress.arguments.set setting value with
  | .ok arguments => .ok { arguments }
  | .error fault => .error (.fault fault)

def Progress.addTemplate (progress : Progress) (path : String) : Except Stop Progress :=
  match progress.arguments.addTemplate path with
  | .ok arguments => .ok { arguments }
  | .error fault => .error (.fault fault)

def Progress.turnOn (progress : Progress) (topic : Topic) : Switch → Except Stop Progress
  | .help => .error (.command (.help topic))
  | .version => .error (.command .version)
  | .keepGoing =>
    if progress.arguments.keepGoing then .error (.fault (.repeated "--keep-going"))
    else .ok { progress with arguments.keepGoing := true }

/-- Reads letters after a dash: switches, and at the end perhaps an option with its value. -/
def Progress.readLetters (topic : Topic) (keys : Keys) (progress : Progress) :
    List Char → Except Stop Progress
  | [] => .ok progress
  | letter :: rest =>
    match keys.short.lookup letter with
    | none => .error (.fault (.unexpected ("-" ++ letter.toString)))
    | some (.switch switch) => do readLetters topic keys (← progress.turnOn topic switch) rest
    | some (.setting setting) =>
      match rest with
      | [] => .ok { progress with waiting := some setting }
      | '=' :: value => progress.set setting (String.ofList value)
      | value => progress.set setting (String.ofList value)

def Progress.readLong (topic : Topic) (keys : Keys) (progress : Progress) (name : String)
    (value : Option String) : Except Stop Progress :=
  match keys.long.lookup name, value with
  | none, _ => .error (.fault (.unexpected ("--" ++ name)))
  | some (.switch switch), none => progress.turnOn topic switch
  | some (.switch _), some _ => .error (.fault (.unexpectedValue ("--" ++ name)))
  | some (.setting setting), none => .ok { progress with waiting := some setting }
  | some (.setting setting), some value => progress.set setting value

def Progress.finish (progress : Progress) : Except Stop Command :=
  match progress.waiting with
  | some setting => .error (.fault (.missingValue setting.name))
  | none =>
    if progress.arguments.templates.isEmpty then .error (.fault .missingTemplates)
    else .ok (.convert progress.arguments)

def readConvert (progress : Progress) : List String → Except Stop Command
  | [] => progress.finish
  | argument :: rest =>
    match progress.waiting, Word.ofArgument argument with
    | some setting, .plain value => do readConvert (← progress.set setting value) rest
    | some setting, _ => .error (.fault (.missingValue setting.name))
    | none, .divider => do (← rest.foldlM Progress.addTemplate progress).finish
    | none, .long name value => do
      readConvert (← progress.readLong .convert convertKeys name value) rest
    | none, .short letters => do
      readConvert (← progress.readLetters .convert convertKeys letters) rest
    | none, .plain path => do readConvert (← progress.addTemplate path) rest

def readBare (topic : Topic) (command : Command) : List String → Except Stop Command
  | [] => .ok command
  | argument :: rest =>
    match Word.ofArgument argument with
    | .divider =>
      match rest with
      | [] => .ok command
      | argument :: _ => .error (.fault (.unexpected argument))
    | .long name value => do
      let _ ← Progress.readLong topic helpKeys {} name value
      readBare topic command rest
    | .short letters => do
      let _ ← Progress.readLetters topic helpKeys {} letters
      readBare topic command rest
    | .plain text => .error (.fault (.unexpected text))

def readHelp : List String → Except Stop Command
  | [] => .ok (.help .program)
  | ["convert"] => .ok (.help .convert)
  | ["targets"] => .ok (.help .targets)
  | ["help"] => .ok (.help .help)
  | "convert" :: name :: _ | "targets" :: name :: _ | "help" :: name :: _ | name :: _ =>
    .error (.fault (.unknownCommand name))

def read : List String → Except Stop Command
  | [] => .error (.fault .missingCommand)
  | "convert" :: rest => readConvert {} rest
  | "targets" :: rest => readBare .targets .targets rest
  | "help" :: rest => readHelp rest
  | argument :: _ =>
    match Word.ofArgument argument with
    | .divider => .error (.fault .missingCommand)
    | .long name value => do
      let _ ← Progress.readLong .program programKeys {} name value
      .error (.fault .missingCommand)
    | .short letters => do
      let _ ← Progress.readLetters .program programKeys {} letters
      .error (.fault .missingCommand)
    | .plain name => .error (.fault (.unknownCommand name))

def parse (arguments : List String) : Except UsageFault Command :=
  match read arguments with
  | .ok command | .error (.command command) => .ok command
  | .error (.fault fault) => .error fault

end Provision.CommandLine
