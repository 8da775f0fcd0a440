import Provision.Main
import Provision.Proofs.Duration
import Provision.Proofs.Markers
import Provision.Proofs.Names.Conventions
import Provision.Proofs.Namespaces
import Provision.Proofs.Render.Operators
import Provision.Proofs.Schema.Registry
import Provision.Proofs.Binding.Conformance
import Provision.Proofs.Binding.Reordering
import Provision.Proofs.Lowering.Scheduling
import Provision.Proofs.Render.Hygiene
import Provision.Proofs.Locals
import Provision.Proofs.Secrets
import Provision.Proofs.Lowering.Types
import Provision.Proofs.Lowering.Arguments
import Provision.Proofs.Interpolation.Writing
import Provision.Proofs.Template.Entries
import Provision.Proofs.Batch.Contents
import Provision.Proofs.Render.Formatter
import Provision.Proofs.Binding.Unions
import Provision.Proofs.Render.Templates.Backticks
import Provision.Proofs.Render.Templates.Formats
import Provision.Proofs.Render.Templates.Interpolated
import Provision.Proofs.Render.Templates.Formatted
