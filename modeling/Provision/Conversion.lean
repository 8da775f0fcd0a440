import Provision.Assembly
import Provision.Binding.Program
import Provision.Lowering
import Provision.Template

/-!
# Conversions

A program converted to several targets: bound and lowered once, assembled for each.
-/

namespace Provision

structure GeneratedFile where
  path : String
  contents : String
  deriving DecidableEq, Repr

structure Conversion where
  diagnostics : List Diagnostic
  programs : List Assembly.Assembled

namespace Conversion

def allDiagnostics (conversion : Conversion) : List Diagnostic :=
  conversion.diagnostics ++ conversion.programs.flatMap (·.diagnostics)

def hasErrors (conversion : Conversion) : Bool :=
  Provision.hasErrors conversion.allDiagnostics

def files (conversion : Conversion) : List GeneratedFile :=
  conversion.programs.map fun program =>
    ⟨program.target.name ++ "/" ++ program.target.entryFile, program.source⟩

def ofProgram (program : Program) (registry : Schema.Registry) (targets : List Target) :
    Conversion :=
  let (bound, diagnostics) := Binding.bind program registry
  let lowered := Lowering.lower bound
  ⟨diagnostics, targets.map (Assembly.assemble lowered)⟩

def ofTemplate (text : String) (registry : Schema.Registry) (targets : List Target) :
    Except Template.Fault Conversion := do
  let loaded ← Template.parse text
  let conversion := ofProgram loaded.value registry targets
  return { conversion with diagnostics := loaded.diagnostics ++ conversion.diagnostics }

end Conversion

end Provision
