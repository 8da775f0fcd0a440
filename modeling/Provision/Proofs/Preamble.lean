import Provision.Proofs.Render.Places

/-!
# What a preamble provides

The imports and helpers of an assembled program are what its declarations need, each rendered on its
own. A declaration that has only a marker adds what it came to before its first fault, be it used
elsewhere or not.
-/

namespace Provision.Assembly

open Provision.Graph Render Rendering

def Assembled.Provides (assembled : Assembled) : Need → Prop
  | .imported item => item ∈ assembled.imports
  | .helper helper => helper ∈ assembled.helpers

/-- What the declaration at a position needs when it alone is rendered, among the identifiers of its
program. -/
def needsAt (target : Target) (nodes : List Bound.Node) (position : Nat) : List Need :=
  nodes[position]?.elim [] fun node => Rendering.needs
    (renderAt (programEnv target nodes).1 nodes (programEnv target nodes).2 true position node)

theorem mem_importsOf {needs : List Need} {item : Import} :
    item ∈ importsOf needs ↔ .imported item ∈ needs := by
  have hprovider (package : String) (module : Option String) :
      .provider package module ∈ importsOf needs ↔
        .imported (.provider package module) ∈ needs := by
    have hneed (need : Need) : need.provider? = some (package, module) ↔
        need = .imported (.provider package module) := by
      rw [Need.provider?.eq_def]
      split <;> simp_all
    simp [importsOf, Import.fixed, providersOf, hneed]
  cases item with
  | provider package module => exact hprovider package module
  | _ => simp [importsOf, Import.fixed]

theorem mem_helpersOf {needs : List Need} {helper : Helper} :
    helper ∈ helpersOf needs ↔ .helper helper ∈ needs := by
  cases helper <;> simp [helpersOf, Helper.all]

theorem provides_iff_mem_needs {program : Bound.Program} {target : Target} {need : Need} :
    (assemble program target).Provides need ↔ need ∈ (writeAll target program.nodes).needs := by
  cases need with
  | imported item => exact mem_importsOf
  | helper helper => exact mem_helpersOf

section

variable {target : Target} {nodes : List Bound.Node} {position : Nat} {node : Bound.Node}

theorem needsAt_eq (h : nodes[position]? = some node) :
    needsAt target nodes position = Event.needs (nodeEvents target node) := by
  rw [needsAt, h]
  exact (follows_renderAt true).needs

end

theorem needs_push (progress : Progress) (node : Bound.Node) (statement : Statement) :
    (progress.push node statement).needs = progress.needs := by
  unfold Progress.push
  split <;> rfl

private theorem needs_write {env : Env} {nodes : List Bound.Node} {idents : List (Nat × String)}
    {progress : Progress} {position : Nat} {node : Bound.Node}
    (hnode : nodes[position]? = some node) :
    (Progress.write env nodes idents progress position).needs = progress.needs ++
      (renderAt env nodes idents (progress.resources == 0) position node).needs := by
  rw [Progress.write, hnode]
  dsimp only
  split
  · split <;> simp [needs_push]
  · simp [needs_push]

theorem needs_writeAll (target : Target) (nodes : List Bound.Node) :
    (writeAll target nodes).needs = (order nodes).order.flatMap (needsAt target nodes) := by
  have hwrite (progress : Progress) (position : Nat) :
      (Progress.write (programEnv target nodes).1 nodes (programEnv target nodes).2 progress
        position).needs = progress.needs ++ needsAt target nodes position := by
    cases hnode : nodes[position]? with
    | none => simp [Progress.write, needsAt, hnode]
    | some node => rw [needs_write hnode, (follows_renderAt _).needs, needsAt_eq hnode]
  have hfold (positions : List Nat) (progress : Progress) :
      (positions.foldl (Progress.write (programEnv target nodes).1 nodes
        (programEnv target nodes).2) progress).needs =
        progress.needs ++ positions.flatMap (needsAt target nodes) := by
    induction positions generalizing progress with
    | nil => simp
    | cons position rest ih => simp [ih, hwrite]
  exact hfold _ _

theorem provides_iff {program : Bound.Program} {target : Target} {need : Need} :
    (assemble program target).Provides need ↔
      ∃ statement ∈ (assemble program target).statements,
        need ∈ needsAt target program.nodes statement.node := by
  have hnodes := congrArg (List.map Prod.fst) (assemble_statements program target)
  simp only [List.map_map, Function.comp_def, Statement.mark, List.map_id'] at hnodes
  rw [provides_iff_mem_needs, needs_writeAll, ← hnodes]
  simp

/-- A preamble provides what the declarations with a statement need, each on its own. For one that
has only a marker this is what comes up before its first fault, so nothing is provided in vain if
the statements that are no markers need all of it. -/
theorem provides_needs_before_faults (program : Bound.Program) (target : Target) :
    (∀ need, (assemble program target).Provides need ↔
      ∃ statement ∈ (assemble program target).statements,
        need ∈ needsAt target program.nodes statement.node) ∧
    (∀ statement ∈ (assemble program target).statements, ∃ node,
      program.nodes[statement.node]? = some node ∧
      needsAt target program.nodes statement.node = Event.needs (nodeEvents target node) ∧
      (statement.isMarker = true ↔ .fault ∈ nodeEvents target node)) ∧
    ((∀ need, (assemble program target).Provides need ↔
        ∃ statement ∈ (assemble program target).statements,
          statement.isMarker = false ∧ need ∈ needsAt target program.nodes statement.node) ↔
      ∀ marker ∈ (assemble program target).statements, marker.isMarker = true →
        ∀ need ∈ needsAt target program.nodes marker.node,
          ∃ statement ∈ (assemble program target).statements,
            statement.isMarker = false ∧
              need ∈ needsAt target program.nodes statement.node) := by
  refine ⟨fun need => provides_iff, fun statement hstatement => ?_, ?_, ?_⟩
  · obtain ⟨horder, hmarker⟩ := isMarker_of_mem_statements hstatement
    have hnode := List.getElem?_eq_getElem (lt_length_of_mem_order horder)
    exact ⟨_, hnode, needsAt_eq hnode, hmarker ▸ refusal?_isSome_iff hnode⟩
  · intro hlaw marker hmarker _ need hneed
    exact (hlaw need).mp (provides_iff.mpr ⟨marker, hmarker, hneed⟩)
  · intro hshared need
    rw [provides_iff]
    constructor
    · rintro ⟨statement, hstatement, hneed⟩
      cases hmarker : statement.isMarker with
      | false => exact ⟨statement, hstatement, hmarker, hneed⟩
      | true => exact hshared statement hstatement hmarker need hneed
    · rintro ⟨statement, hstatement, -, hneed⟩
      exact ⟨statement, hstatement, hneed⟩

def unsayablePair : Program :=
  ⟨[.variable "pair" (.array [.template [.text "v", .expr (.literal (.bool true) none)] none,
      .conditional (.literal (.bool true) none) (.literal (.string "a") none)
        (.literal (.string "b") none) none] none)]⟩

theorem provides_in_vain_unsayablePair :
    hasErrors (Binding.bind unsayablePair {}).2 = false ∧
    ¬ ∀ need,
      (assemble (Lowering.lower (Binding.bind unsayablePair {}).1) .go).Provides need ↔
        ∃ statement ∈ (assemble (Lowering.lower (Binding.bind unsayablePair {}).1) .go).statements,
          statement.isMarker = false ∧
            need ∈ needsAt .go (Lowering.lower (Binding.bind unsayablePair {}).1).nodes
              statement.node := by
  refine ⟨by decide +kernel, fun hlaw => ?_⟩
  have hprovides : (assemble (Lowering.lower (Binding.bind unsayablePair {}).1) .go).Provides
      (.imported .format) := provides_iff_mem_needs.mpr (by decide +kernel)
  have hmarks : (assemble (Lowering.lower (Binding.bind unsayablePair {}).1) .go).statements.map
      Statement.mark = [(0, true)] := by decide +kernel
  obtain ⟨statement, hstatement, hmarker, -⟩ := (hlaw _).mp hprovides
  have hmark := List.mem_map_of_mem (f := Statement.mark) hstatement
  rw [hmarks, List.mem_singleton] at hmark
  simp [(Prod.mk.inj hmark).2] at hmarker

end Provision.Assembly
