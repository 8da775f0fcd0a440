import Provision.CommandLine.Arguments

/-!
# Help

The texts that explain the command line, in columns.
-/

namespace Provision.CommandLine

def version : String := "infragen 0.1.0\n"

structure HelpSection where
  heading : String
  entries : List (String × String)

def HelpSection.text (part : HelpSection) : String :=
  let width := part.entries.foldl (fun width (entry, _) => max width entry.length) 0
  part.heading ++ ":\n" ++ String.join (part.entries.map fun (entry, meaning) =>
    "  " ++ entry.pushn ' ' (width + 2 - entry.length) ++ meaning ++ "\n")

structure HelpPage where
  purpose : String
  usage : String
  parts : List HelpSection

def HelpPage.text (page : HelpPage) : String :=
  "\n".intercalate
    (s!"{page.purpose}\n" :: s!"Usage: {page.usage}\n" :: page.parts.map HelpSection.text)

def convertPurpose : String := "Convert templates into programs for each target language"

def targetsPurpose : String := "List the target languages and the files they produce"

def helpPurpose : String := "Print this message or the help of the given subcommand(s)"

def Topic.page : Topic → HelpPage
  | .program => {
      purpose := "Converts infrastructure templates into Pulumi programs"
      usage := "infragen <COMMAND>"
      parts := [
        ⟨"Commands",
          [("convert", convertPurpose), ("targets", targetsPurpose), ("help", helpPurpose)]⟩,
        ⟨"Options", [("-h, --help", "Print help"), ("-V, --version", "Print version")]⟩] }
  | .convert => {
      purpose := convertPurpose
      usage := "infragen convert [OPTIONS] <TEMPLATES>..."
      parts := [
        ⟨"Arguments", [("<TEMPLATES>...", "JSON template files")]⟩,
        ⟨"Options", [
          ("-t, --target <TARGET>", "Comma separated targets (python, typescript, go, csharp)"),
          ("-s, --schema <SCHEMAS>", "Provider schema files; repeat for several packages"),
          ("-o, --out <OUT>", "Output directory"),
          ("-j, --jobs <JOBS>", "Worker threads"),
          ("    --config <CONFIG>", "Settings file, `./infragen.toml` when present"),
          ("    --keep-going", "Keep converting after a template fails to load"),
          ("-h, --help", "Print help")]⟩] }
  | .targets => {
      purpose := targetsPurpose
      usage := "infragen targets"
      parts := [⟨"Options", [("-h, --help", "Print help")]⟩] }
  | .help => {
      purpose := helpPurpose
      usage := "infragen help [COMMAND]..."
      parts := [⟨"Arguments", [("[COMMAND]...", "Print help for the subcommand(s)")]⟩] }

end Provision.CommandLine
