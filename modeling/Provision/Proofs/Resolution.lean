import Provision.Proofs.Binding.Deferral
import Provision.Proofs.Graph.Ordering
import Provision.Proofs.Identifiers
import Provision.Proofs.Lowering.Paths

/-!
# What names stand for

Binding, ordering and rendering each look names up in tables of their own. They agree: a name that
is read stands for the first declaration of it that is no output, and this is where the type of the
reading comes from, what the reader is ordered after and whose identifier is written.
-/

namespace Provision

def Bound.Program.AccessAt (program : Bound.Program) (reader : Nat) (path : Bound.Path) (ty : Ty) :
    Prop :=
  ∃ node expr, program.nodes[reader]? = some node ∧ expr ∈ node.expressions ∧
    .access path ty ∈ expr.subexprs

variable {reader : Nat} {path : Bound.Path}

theorem Bound.Program.exists_accessAt_iff {program : Bound.Program} :
    (∃ ty, program.AccessAt reader path ty) ↔
      ∃ node, program.nodes[reader]? = some node ∧ ∃ expr ∈ node.expressions,
        expr.ReadsPath path := by
  constructor
  · rintro ⟨ty, node, expr, hnode, hexpr, hty⟩
    exact ⟨node, hnode, expr, hexpr, ty, hty⟩
  · rintro ⟨node, hnode, expr, hexpr, ty, hty⟩
    exact ⟨ty, node, expr, hnode, hexpr, hty⟩

variable {ty : Ty}

namespace Binding

inductive Offers (program : Program) (bound : Bound.Program) (position : Nat) :
    Node → Bound.RootKind → Ty → Prop
  | config {name : String} {type : ConfigType} {default : Option Expr} {secret : Bool} :
      Offers program bound position (.config name type default secret) .config (configTy type)
  | resource {name token : String} {properties : Members} {options : ResourceOptions} :
      Offers program bound position (.resource name token properties options) (.resource token)
        (.resource token)
  | variable {name : String} {value : Expr} {ty : Ty} : ReadAt program bound position ty →
      Offers program bound position (.variable name value) .variable ty

def Walk.result (walked : Walk) : Ty :=
  match walked.problem with
  | some _ => .error
  | none => eventualIf walked.eventual walked.ty

theorem Shape.access_inv {registry : Schema.Registry} {symbols : Symbols}
    {known : Nat → Ty → Prop} {reported : Diagnostic → Prop} {expected : Ty} {declared : Expr}
    (h : Shape registry symbols known reported expected declared (.access path ty))
    (hkind : path.kind.isInput = false) :
    ∃ base accessors, Root symbols known path.root path.kind base ∧
      path.accessors = (walk registry base accessors).accessors ∧
      ty = (walk registry base accessors).result := by
  generalize hbound : Bound.Expr.access path ty = bound at h
  cases h with
  | access hroot hproblem | stopped hroot hproblem =>
    obtain ⟨rfl, rfl⟩ := Bound.Expr.access.inj hbound
    exact ⟨_, _, hroot, rfl, by rw [Walk.result, hproblem]⟩
  | input =>
    obtain ⟨rfl, -⟩ := Bound.Expr.access.inj hbound
    simp [Bound.RootKind.isInput] at hkind
  | literal hliteral => exact absurd (hbound.trans hliteral) (ne_bindLiteral (by simp))
  | _ => simp [Bound.Expr.failed] at hbound

variable {program : Program} {registry : Schema.Registry}

theorem Outcome.offers {state : State} (outcome : Outcome program registry state) {root : String}
    {kind : Bound.RootKind} {base : Ty}
    (h : Root (symbolsOf program) (Known program state) root kind base) :
    ∃ position node, program.declaration? root = some (position, node) ∧
      Offers program (bind program registry).1 position node kind base := by
  have hdeclared : ∀ {position node}, (symbolsOf program).lookup root = some (position, node) →
      program.declaration? root = some (position, node) :=
    fun hlookup => (lookup_symbols program root).symm.trans hlookup
  cases h with
  | config hlookup => exact ⟨_, _, hdeclared hlookup, .config⟩
  | resource hlookup => exact ⟨_, _, hdeclared hlookup, .resource⟩
  | «variable» hlookup hknown =>
    exact ⟨_, _, hdeclared hlookup, .variable (outcome.readAt hlookup hknown)⟩

theorem exists_offers (h : (bind program registry).1.AccessAt reader path ty)
    (hkind : path.kind.isInput = false) :
    ∃ position node base accessors, program.declaration? path.root = some (position, node) ∧
      Offers program (bind program registry).1 position node path.kind base ∧
      path.accessors = (walk registry base accessors).accessors ∧
      ty = (walk registry base accessors).result := by
  obtain ⟨state, outcome⟩ := exists_outcome program registry
  obtain ⟨bound, expr, hbound, hexpr, hmem⟩ := h
  have hwithin : (bind program registry).1.Within (.access path ty) :=
    ⟨expr, List.mem_flatMap.mpr ⟨bound, List.mem_of_getElem? hbound, hexpr⟩, hmem⟩
  obtain ⟨subject, site, hevaluates, hsite⟩ := exists_evaluates hwithin
  obtain ⟨-, helaborates⟩ := hevaluates.elaborates outcome
  rw [hsite] at helaborates
  obtain ⟨base, accessors, hroot, haccess⟩ := helaborates.shape.access_inv hkind
  obtain ⟨position, node, hdeclared, hoffers⟩ := outcome.offers hroot
  exact ⟨position, node, base, accessors, hdeclared, hoffers, haccess⟩

variable (registry) in
theorem declarationOf_lower {root : String} {position : Nat} {node : Node}
    (hdeclared : program.declaration? root = some (position, node)) :
    Graph.declarationOf (Lowering.lower (bind program registry).1).nodes root = some position := by
  obtain ⟨state, outcome⟩ := exists_outcome program registry
  obtain ⟨hnode, hdeclares, hbefore⟩ := Program.declaration?_eq_some_iff.mp hdeclared
  obtain ⟨bound, hbound, hboundAs⟩ := outcome.exists_bound hnode
  obtain ⟨hlt, rfl⟩ := List.getElem?_eq_some_iff.mp hbound
  have hlowered : ∀ node : Bound.Node,
      (node.map Lowering.lowerInput).declares root = node.declares root := by
    rintro ⟨name, body⟩
    cases body <;> rfl
  refine List.findIdx?_eq_some_iff_getElem.mpr ⟨by simpa [Lowering.lower] using hlt, ?_, ?_⟩
  · simp only [Lowering.lower, List.getElem_map]
    exact (hlowered _).trans ((hboundAs.declares_eq root).trans hdeclares)
  · intro before hless
    have hbound' := List.getElem?_eq_getElem (hless.trans hlt)
    obtain ⟨other, hother, hboundAs'⟩ := outcome.exists_declaration hbound'
    simp only [Lowering.lower, List.getElem_map]
    refine Bool.eq_false_iff.mp ((hlowered _).trans ((hboundAs'.declares_eq root).trans ?_))
    exact hbefore before hless other hother

end Binding

namespace Lowering

variable {program : Bound.Program}

theorem accessAt_lower :
    (∃ ty, (lower program).AccessAt reader path ty) ↔ ∃ ty, program.AccessAt reader path ty := by
  rw [Bound.Program.exists_accessAt_iff, Bound.Program.exists_accessAt_iff]
  constructor
  · rintro ⟨lowered, hlowered, copy, hcopy, hpath⟩
    rw [lower, List.getElem?_map] at hlowered
    obtain ⟨node, hnode, rfl⟩ := Option.map_eq_some_iff.mp hlowered
    rw [Bound.Node.expressions_map] at hcopy
    obtain ⟨expr, hexpr, rfl⟩ := List.mem_map.mp hcopy
    exact ⟨node, hnode, expr, hexpr, readsPath_lowerInput.mp hpath⟩
  · rintro ⟨node, hnode, expr, hexpr, hpath⟩
    refine ⟨node.map lowerInput, ?_, lowerInput expr, ?_, readsPath_lowerInput.mpr hpath⟩
    · rw [lower, List.getElem?_map, hnode]
      rfl
    · rw [Bound.Node.expressions_map]
      exact List.mem_map_of_mem hexpr

theorem reads_lower_iff {position : Nat} :
    (Graph.dependencyEdges (lower program).nodes).Reads reader position ↔
      ∃ path ty, program.AccessAt reader path ty ∧ path.kind.isInput = false ∧
        Graph.declarationOf (lower program).nodes path.root = some position := by
  rw [Graph.reads_dependencyEdges_iff]
  constructor
  · rintro ⟨node, hnode, root, hroot, hdeclared⟩
    obtain ⟨path, hreads, hkind, rfl⟩ := Bound.Node.mem_dependencies.mp hroot
    obtain ⟨ty, hty⟩ := accessAt_lower.mp
      (Bound.Program.exists_accessAt_iff.mpr ⟨node, hnode, hreads⟩)
    exact ⟨path, ty, hty, hkind, hdeclared⟩
  · rintro ⟨path, ty, hty, hkind, hdeclared⟩
    obtain ⟨node, hnode, hreads⟩ :=
      Bound.Program.exists_accessAt_iff.mp (accessAt_lower.mpr ⟨ty, hty⟩)
    exact ⟨node, hnode, path.root, Bound.Node.mem_dependencies.mpr ⟨path, hreads, hkind, rfl⟩,
      hdeclared⟩

end Lowering

open Binding (bind walk)
open Assembly (programEnv identOf)

/-- A path that a declaration reads stands for the declaration at a position: binding takes the kind
and the type from there, the reader depends on it, and its identifier is the one written. -/
structure StandsFor (program : Program) (registry : Schema.Registry) (target : Target)
    (reader : Nat) (path : Bound.Path) (ty : Ty) (position : Nat) (node : Node) : Prop where
  declared : program.declaration? path.root = some (position, node)
  bound : ∃ base accessors,
    Binding.Offers program (bind program registry).1 position node path.kind base ∧
      path.accessors = (walk registry base accessors).accessors ∧
      ty = (walk registry base accessors).result
  ordered : Graph.declarationOf (Lowering.lower (bind program registry).1).nodes path.root =
    some position
  depends : (Graph.dependencyEdges (Lowering.lower (bind program registry).1).nodes).Reads reader
    position
  written : ∀ other < program.nodes.length,
    identOf (programEnv target (Lowering.lower (bind program registry).1).nodes).2 other =
      (programEnv target (Lowering.lower (bind program registry).1).nodes).1.identifierFor
        path.root ↔ other = position

theorem exists_standsFor {program : Program} {registry : Schema.Registry} (target : Target)
    (h : (bind program registry).1.AccessAt reader path ty) (hkind : path.kind.isInput = false) :
    ∃ position node, StandsFor program registry target reader path ty position node := by
  obtain ⟨state, outcome⟩ := Binding.exists_outcome program registry
  obtain ⟨position, node, base, accessors, hdeclared, hbound⟩ := Binding.exists_offers h hkind
  have hordered := Binding.declarationOf_lower registry hdeclared
  have hlength :
      (Lowering.lower (bind program registry).1).nodes.length = program.nodes.length := by
    rw [← outcome.length_eq, Lowering.lower, List.length_map]
  obtain ⟨hlt, -⟩ := List.findIdx?_eq_some_iff_getElem.mp hordered
  refine ⟨position, node, hdeclared, ⟨base, accessors, hbound⟩, hordered, ?_, ?_⟩
  · exact Lowering.reads_lower_iff.mpr ⟨path, ty, h, hkind, hordered⟩
  · intro other hother
    rw [Assembly.identifierFor_programEnv hordered]
    constructor
    · exact Assembly.eq_of_identOf_eq hlt (hlength ▸ hother)
    · rintro rfl
      rfl

/-- All accesses of a program, before and after lowering, stand for declarations, and a declaration
depends on nothing else. -/
theorem names_stand_for_declarations (program : Program) (registry : Schema.Registry)
    (target : Target) :
    (∀ reader path ty, (bind program registry).1.AccessAt reader path ty →
      path.kind.isInput = false →
        ∃ position node, StandsFor program registry target reader path ty position node) ∧
    (∀ reader path, (∃ ty, (Lowering.lower (bind program registry).1).AccessAt reader path ty) ↔
      ∃ ty, (bind program registry).1.AccessAt reader path ty) ∧
    ∀ reader position,
      (Graph.dependencyEdges (Lowering.lower (bind program registry).1).nodes).Reads reader
        position →
      ∃ path ty node, (bind program registry).1.AccessAt reader path ty ∧
        StandsFor program registry target reader path ty position node := by
  refine ⟨fun _ _ _ => exists_standsFor target, fun _ _ => Lowering.accessAt_lower, ?_⟩
  intro reader position hreads
  obtain ⟨path, ty, haccess, hkind, hordered⟩ := Lowering.reads_lower_iff.mp hreads
  obtain ⟨position', node, hstands⟩ := exists_standsFor target haccess hkind
  obtain rfl : position' = position := Option.some.inj (hstands.ordered.symm.trans hordered)
  exact ⟨path, ty, node, haccess, hstands⟩

def repeatedName : Program :=
  ⟨[.output "site" (.literal (.bool true) none),
    .variable "copy" (.access ⟨"site", [.field "id"]⟩ none),
    .resource "site" "aws:s3:Bucket" [] {},
    .config "site" .string none false,
    .variable "site" (.literal (.bool true) none)]⟩

theorem names_stand_for_declarations_repeatedName :
    ∃ node, StandsFor repeatedName Binding.bucketRegistry .python 1
        ⟨"site", .resource "aws:s3:Bucket", [.field "id"]⟩ (.eventual .string) 2 node ∧
      identOf (programEnv .python
        (Lowering.lower (bind repeatedName Binding.bucketRegistry).1).nodes).2 2 = "site" := by
  have haccess : (bind repeatedName Binding.bucketRegistry).1.AccessAt 1
      ⟨"site", .resource "aws:s3:Bucket", [.field "id"]⟩ (.eventual .string) :=
    ⟨_, _, rfl, List.mem_singleton.mpr rfl, Bound.Expr.self_mem_subexprs _⟩
  obtain ⟨hresolved, -⟩ :=
    names_stand_for_declarations repeatedName Binding.bucketRegistry .python
  obtain ⟨position, node, hstands⟩ := hresolved _ _ _ haccess rfl
  have hordered : Graph.declarationOf
      (Lowering.lower (bind repeatedName Binding.bucketRegistry).1).nodes "site" = some 2 := rfl
  obtain rfl : position = 2 := Option.some.inj (hstands.ordered.symm.trans hordered)
  exact ⟨node, hstands, by decide +kernel⟩

end Provision
