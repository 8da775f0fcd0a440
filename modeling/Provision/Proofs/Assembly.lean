import Provision.Conversion
import Provision.Proofs.Graph.Ordering
import Provision.Proofs.Render.Failures

/-!
# What an assembled program holds

Writing the ordered declarations adds one statement for each, a marker for those that cannot be
rendered, and one diagnostic for each marker. So the statements follow the order of declarations,
and the diagnostics are the reports on cycles, those on what they block, and the failures.
-/

namespace Provision.Assembly

open Provision.Graph Render Rendering

def Statement.mark (statement : Statement) : Nat × Bool := (statement.node, statement.isMarker)

def failureAt (env : Env) (nodes : List Bound.Node) (idents : List (Nat × String))
    (position : Nat) : Option Diagnostic :=
  nodes[position]?.bind fun node => (renderAt env nodes idents true position node).failure?

variable {position : Nat}

theorem onlyUnsupported_failureAt {env : Env} {nodes : List Bound.Node}
    {idents : List (Nat × String)} {diagnostic : Diagnostic}
    (h : failureAt env nodes idents position = some diagnostic) :
    diagnostic.severity = .error ∧ diagnostic.kind = .unsupportedExpression := by
  obtain ⟨node, -, hfailure⟩ := Option.bind_eq_some_iff.mp h
  exact (failsOnly_renderNode _ _ _ _ node diagnostic hfailure).1

namespace Progress

structure Adds (env : Env) (nodes : List Bound.Node) (idents : List (Nat × String))
    (positions : List Nat) (progress next : Progress) : Prop where
  statements : next.statements.map Statement.mark = progress.statements.map Statement.mark ++
    (positions.filter (!isOutputAt nodes ·)).map fun position =>
      (position, (failureAt env nodes idents position).isSome)
  outputs : next.outputs.map Statement.mark = progress.outputs.map Statement.mark ++
    (positions.filter (isOutputAt nodes)).map fun position =>
      (position, (failureAt env nodes idents position).isSome)
  diagnostics : next.diagnostics = progress.diagnostics ++ positions.filterMap fun position =>
    (failureAt env nodes idents position).map (·.withSubject (nameAt nodes position))

variable {env : Env} {nodes : List Bound.Node} {idents : List (Nat × String)} {progress : Progress}

private theorem adds_write (h : position < nodes.length) :
    Adds env nodes idents [position] progress (write env nodes idents progress position) := by
  have hnode : nodes[position]? = some nodes[position] := List.getElem?_eq_getElem h
  have hfailure : failureAt env nodes idents position =
      (renderAt env nodes idents (progress.resources == 0) position nodes[position]).failure? := by
    rw [failureAt, hnode, Option.bind_some]
    exact (failure?_renderNode _ _ _ _ _).symm
  have houtput : isOutputAt nodes position = nodes[position].isOutput := by
    simp [isOutputAt, hnode]
  have hname : nameAt nodes position = nodes[position].name := by simp [nameAt, hnode]
  rw [write, hnode]
  cases hresult : (renderAt env nodes idents (progress.resources == 0) position
      nodes[position]).result with
  | ok text =>
    have hnone : failureAt env nodes idents position = none := by
      simp [hfailure, failure?, hresult]
    constructor <;> cases hkind : nodes[position].isOutput <;>
      simp [push, hresult, hnone, houtput, hkind, Statement.mark, apply_ite]
  | error diagnostic =>
    have hsome : failureAt env nodes idents position = some diagnostic := by
      simp [hfailure, failure?, hresult]
    constructor <;> cases hkind : nodes[position].isOutput <;>
      simp [push, hresult, hsome, houtput, hname, hkind, Statement.mark]

theorem Adds.trans {first second : List Nat} {middle final : Progress}
    (hfirst : Adds env nodes idents first progress middle)
    (hsecond : Adds env nodes idents second middle final) :
    Adds env nodes idents (first ++ second) progress final := by
  constructor
  · simp [hsecond.statements, hfirst.statements]
  · simp [hsecond.outputs, hfirst.outputs]
  · simp [hsecond.diagnostics, hfirst.diagnostics]

theorem adds_foldl {positions : List Nat} (h : ∀ position ∈ positions, position < nodes.length) :
    Adds env nodes idents positions progress
      (positions.foldl (write env nodes idents) progress) := by
  induction positions generalizing progress with
  | nil => constructor <;> simp
  | cons position rest ih =>
    have hfirst : Adds env nodes idents [position] progress
        (write env nodes idents progress position) := adds_write (h position List.mem_cons_self)
    exact hfirst.trans (ih fun other hother => h other (List.mem_cons_of_mem _ hother))

end Progress

/-! ## Assembled programs -/

/-- Why a declaration has no statement of its own in a target, if it has none. -/
def refusal? (target : Target) (nodes : List Bound.Node) (position : Nat) : Option Diagnostic :=
  failureAt (programEnv target nodes).1 nodes (programEnv target nodes).2 position

private theorem order_eq_append (nodes : List Bound.Node) :
    (order nodes).order = (order nodes).order.filter (!isOutputAt nodes ·) ++
      (order nodes).order.filter (isOutputAt nodes) := by
  obtain ⟨-, placed, h⟩ := exists_order nodes
  rw [h.filter_plain, h.filter_output]
  exact h.order

theorem lt_length_of_mem_order {nodes : List Bound.Node} (h : position ∈ (order nodes).order) :
    position < nodes.length := by
  obtain ⟨-, placed, hordered⟩ := exists_order nodes
  simpa using ((hordered.mem_placed position).mp (hordered.mem_order.mp h)).1

theorem adds_writeAll (target : Target) (nodes : List Bound.Node) :
    Progress.Adds (programEnv target nodes).1 nodes (programEnv target nodes).2 (order nodes).order
      { diagnostics := orderReports nodes (order nodes) } (writeAll target nodes) :=
  Progress.adds_foldl fun _ => lt_length_of_mem_order

theorem assemble_statements (program : Bound.Program) (target : Target) :
    (assemble program target).statements.map Statement.mark =
      (order program.nodes).order.map fun position =>
        (position, (refusal? target program.nodes position).isSome) := by
  have hadds := adds_writeAll target program.nodes
  rw [order_eq_append, List.map_append]
  simp only [assemble, List.map_append, hadds.statements, hadds.outputs]
  rfl

theorem assemble_diagnostics (program : Bound.Program) (target : Target) :
    (assemble program target).diagnostics =
      orderReports program.nodes (order program.nodes) ++
        (order program.nodes).order.filterMap fun position =>
          (refusal? target program.nodes position).map
            (·.withSubject (nameAt program.nodes position)) :=
  (adds_writeAll target program.nodes).diagnostics

/-! ## Reports -/

theorem filter_diagnostics (program : Bound.Program) (target : Target) :
    (assemble program target).diagnostics.filter (·.kind == .cyclicReference) =
      (order program.nodes).cycles.map (cycleReport program.nodes) ∧
    (assemble program target).diagnostics.filter (·.severity == .warning) =
      (order program.nodes).blocked.map fun entry =>
        blockedReport program.nodes entry.1 entry.2 := by
  have hcycles : ∀ diagnostic ∈ (order program.nodes).cycles.map (cycleReport program.nodes),
      diagnostic.severity = .error ∧ diagnostic.kind = .cyclicReference := by
    intro diagnostic hdiagnostic
    obtain ⟨cycle, -, rfl⟩ := List.mem_map.mp hdiagnostic
    exact ⟨rfl, rfl⟩
  have hblocked : ∀ diagnostic ∈ (order program.nodes).blocked.map fun entry =>
      blockedReport program.nodes entry.1 entry.2,
      diagnostic.severity = .warning ∧ diagnostic.kind = .reference := by
    intro diagnostic hdiagnostic
    obtain ⟨entry, -, rfl⟩ := List.mem_map.mp hdiagnostic
    exact ⟨rfl, rfl⟩
  have hrefusals : ∀ diagnostic ∈ (order program.nodes).order.filterMap fun position =>
      (refusal? target program.nodes position).map (·.withSubject (nameAt program.nodes position)),
      diagnostic.severity = .error ∧ diagnostic.kind = .unsupportedExpression := by
    intro diagnostic hdiagnostic
    obtain ⟨position, -, hsome⟩ := List.mem_filterMap.mp hdiagnostic
    obtain ⟨refusal, hrefusal, rfl⟩ := Option.map_eq_some_iff.mp hsome
    obtain ⟨hseverity, hkind⟩ := onlyUnsupported_failureAt hrefusal
    exact ⟨hseverity, hkind⟩
  rw [assemble_diagnostics, orderReports]
  simp only [List.filter_append]
  constructor
  · rw [List.filter_eq_self.mpr fun diagnostic h => by simp [(hcycles diagnostic h).2],
      List.filter_eq_nil_iff.mpr fun diagnostic h => by simp [(hblocked diagnostic h).2],
      List.filter_eq_nil_iff.mpr fun diagnostic h => by simp [(hrefusals diagnostic h).2]]
    simp
  · rw [List.filter_eq_nil_iff.mpr fun diagnostic h => by simp [(hcycles diagnostic h).1],
      List.filter_eq_self.mpr fun diagnostic h => by simp [(hblocked diagnostic h).1],
      List.filter_eq_nil_iff.mpr fun diagnostic h => by simp [(hrefusals diagnostic h).1]]
    simp

theorem ne_outsideApply_of_mem_orderReports {nodes : List Bound.Node} {ordering : Graph.Ordering}
    {diagnostic : Diagnostic} (h : diagnostic ∈ orderReports nodes ordering) (name : String) :
    diagnostic.message ≠ outsideApply name := by
  -- The messages differ in their last letters.
  have hlast : (outsideApply name).toList.getLast? = some 'y' := by
    simp [outsideApply, List.getLast?_cons, List.getLast?_append]
  suffices diagnostic.message.toList.getLast? ≠ some 'y' by
    intro heq
    exact this (heq ▸ hlast)
  rcases List.mem_append.mp h with h | h
  · obtain ⟨cycle, -, rfl⟩ := List.mem_map.mp h
    simp only [cycleReport, Diagnostic.withHelp, Diagnostic.withSubject, Diagnostic.error]
    split <;> simp [List.getLast?_append]
  · obtain ⟨⟨node, member⟩, -, rfl⟩ := List.mem_map.mp h
    simp only [blockedReport, Diagnostic.withSubject, Diagnostic.warning, quoted,
      String.toList_append, List.getLast?_append]
    simp

variable {program : Bound.Program}

theorem ne_outsideApply_of_closed
    (h : ∀ expr ∈ program.expressions, ∀ name, ¬ Bound.Expr.Free name expr) (target : Target) :
    ∀ diagnostic ∈ (assemble program target).diagnostics, ∀ name,
      diagnostic.message ≠ outsideApply name := by
  intro diagnostic hdiagnostic name
  rw [assemble_diagnostics] at hdiagnostic
  rcases List.mem_append.mp hdiagnostic with hreport | hdiagnostic
  · exact ne_outsideApply_of_mem_orderReports hreport name
  · obtain ⟨position, -, hsome⟩ := List.mem_filterMap.mp hdiagnostic
    obtain ⟨refusal, hrefusal, rfl⟩ := Option.map_eq_some_iff.mp hsome
    obtain ⟨node, hnode, hfailure⟩ := Option.bind_eq_some_iff.mp hrefusal
    intro hmessage
    obtain ⟨expr, hexpr, hfree⟩ :=
      (failsOnly_renderNode _ _ _ _ node refusal hfailure).2.loose_of_eq hmessage
    have hmem : expr ∈ program.expressions :=
      List.mem_flatMap.mpr ⟨node, List.mem_of_getElem? hnode, hexpr⟩
    exact h expr hmem name hfree

/-- The positions of a program are shared out between cycles, what they block and what is written,
each by what it reaches. There is one report for each cycle and each blocked declaration. -/
theorem ordering_partition (nodes : List Bound.Node) :
    order? nodes = some (order nodes) ∧
    ((order nodes).cycles.flatten ++ (order nodes).blocked.map Prod.fst ++
      (order nodes).order).Perm (List.range nodes.length) ∧
    (∀ node, node ∈ (order nodes).cycles.flatten ↔ (dependencyEdges nodes).OnCycle node) ∧
    (∀ cycle ∈ (order nodes).cycles, cycle ≠ [] ∧ ∀ left ∈ cycle, ∀ right, right ∈ cycle ↔
      (dependencyEdges nodes).Reaches left right ∧ (dependencyEdges nodes).Reaches right left) ∧
    (∀ node, node ∈ (order nodes).blocked.map Prod.fst ↔
      ¬ (dependencyEdges nodes).OnCycle node ∧
        ∃ member, (dependencyEdges nodes).OnCycle member ∧
          (dependencyEdges nodes).Reaches node member) ∧
    (∀ entry ∈ (order nodes).blocked, (dependencyEdges nodes).OnCycle entry.2 ∧
      (dependencyEdges nodes).Reaches entry.1 entry.2) ∧
    (∀ node, node ∈ (order nodes).order ↔ node < nodes.length ∧
      ∀ member, (dependencyEdges nodes).Reaches node member →
        ¬ (dependencyEdges nodes).OnCycle member) ∧
    ∀ target,
      (assemble ⟨nodes⟩ target).diagnostics.filter (·.kind == .cyclicReference) =
        (order nodes).cycles.map (cycleReport nodes) ∧
      (assemble ⟨nodes⟩ target).diagnostics.filter (·.severity == .warning) =
        (order nodes).blocked.map fun entry => blockedReport nodes entry.1 entry.2 := by
  obtain ⟨hsome, placed, h⟩ := exists_order nodes
  refine ⟨hsome, ?_, h.mem_cycles, h.component, fun _ => h.mem_blocked, h.blocking, ?_,
    filter_diagnostics ⟨nodes⟩⟩
  · simpa [Edges.nodes] using h.perm_nodes
  · intro node
    rw [h.mem_order, h.mem_placed, length_dependencyEdges]

/-! ## What statements read -/

variable {target : Target} {statement : Statement}

theorem order_eq_of_statements {before after : List Statement}
    (h : (assemble program target).statements = before ++ statement :: after) :
    (order program.nodes).order =
      before.map Statement.node ++ statement.node :: after.map Statement.node := by
  have hnodes := congrArg (List.map Prod.fst) (assemble_statements program target)
  rw [h] at hnodes
  simpa [Statement.mark, Function.comp_def] using hnodes.symm

theorem isMarker_of_mem_statements (h : statement ∈ (assemble program target).statements) :
    statement.node ∈ (order program.nodes).order ∧
      statement.isMarker = (refusal? target program.nodes statement.node).isSome := by
  have hmark : statement.mark ∈ (assemble program target).statements.map Statement.mark :=
    List.mem_map_of_mem h
  rw [assemble_statements] at hmark
  obtain ⟨position, hposition, heq⟩ := List.mem_map.mp hmark
  obtain ⟨rfl, hmarker⟩ := Prod.mk.inj heq
  exact ⟨hposition, hmarker.symm⟩

def notice (name message : String) : String := quoted name ++ " was not generated: " ++ message

def Progress.Faithful (env : Env) (nodes : List Bound.Node) (idents : List (Nat × String))
    (progress : Progress) : Prop :=
  ∀ statement ∈ progress.statements ++ progress.outputs, ∃ node isFirst,
    nodes[statement.node]? = some node ∧
      (statement.isMarker = false ∧
          (renderAt env nodes idents isFirst statement.node node).result = .ok statement.text ∨
        statement.isMarker = true ∧ ∃ refusal,
          (renderAt env nodes idents isFirst statement.node node).result = .error refusal ∧
          statement.text = env.dialect.comment (notice node.name refusal.message))

theorem Progress.mem_push {progress : Progress} {node : Bound.Node} {added : Statement}
    (h : statement ∈ (progress.push node added).statements ++ (progress.push node added).outputs) :
    statement ∈ progress.statements ++ progress.outputs ∨ statement = added := by
  rw [push] at h
  split at h <;> simp only [List.mem_append, List.mem_singleton] at h ⊢ <;> grind

theorem Progress.faithful_write {env : Env} {nodes : List Bound.Node} {idents : List (Nat × String)}
    {progress : Progress} (h : progress.Faithful env nodes idents) (position : Nat) :
    (write env nodes idents progress position).Faithful env nodes idents := by
  cases hnode : nodes[position]? with
  | none => simpa [write, hnode] using h
  | some node =>
    cases hresult : (renderAt env nodes idents (progress.resources == 0) position
        node).result with
    | ok text =>
      intro statement hstatement
      simp only [write, hnode, hresult] at hstatement
      rcases mem_push (by split at hstatement <;> exact hstatement) with hmem | rfl
      · exact h statement hmem
      · exact ⟨node, _, hnode, .inl ⟨rfl, hresult⟩⟩
    | error diagnostic =>
      intro statement hstatement
      simp only [write, hnode, hresult] at hstatement
      rcases mem_push hstatement with hmem | rfl
      · exact h statement hmem
      · exact ⟨node, _, hnode, .inr ⟨rfl, diagnostic, hresult, rfl⟩⟩

theorem faithful_writeAll (target : Target) (nodes : List Bound.Node) :
    (writeAll target nodes).Faithful (programEnv target nodes).1 nodes
      (programEnv target nodes).2 := by
  have hfold (positions : List Nat) (progress : Progress)
      (hprogress : progress.Faithful (programEnv target nodes).1 nodes
        (programEnv target nodes).2) :
      (positions.foldl (Progress.write (programEnv target nodes).1 nodes
        (programEnv target nodes).2) progress).Faithful (programEnv target nodes).1 nodes
          (programEnv target nodes).2 := by
    induction positions generalizing progress with
    | nil => exact hprogress
    | cons position rest ih => exact ih _ (Progress.faithful_write hprogress position)
  exact hfold _ _ (by simp [Progress.Faithful])

theorem rendered_of_mem_statements (h : statement ∈ (assemble program target).statements)
    (hmarker : statement.isMarker = false) :
    ∃ node isFirst, program.nodes[statement.node]? = some node ∧
      (renderAt (programEnv target program.nodes).1 program.nodes
        (programEnv target program.nodes).2 isFirst statement.node node).result =
          .ok statement.text := by
  obtain ⟨node, isFirst, hnode, ⟨-, hresult⟩ | ⟨htrue, -⟩⟩ :=
    faithful_writeAll target program.nodes statement h
  · exact ⟨node, isFirst, hnode, hresult⟩
  · simp [htrue] at hmarker

theorem comment_of_mem_statements (h : statement ∈ (assemble program target).statements)
    (hmarker : statement.isMarker = true) :
    ∃ node refusal, program.nodes[statement.node]? = some node ∧
      refusal? target program.nodes statement.node = some refusal ∧
      statement.text = (programEnv target program.nodes).1.dialect.comment
        (notice node.name refusal.message) := by
  obtain ⟨node, isFirst, hnode, ⟨hfalse, -⟩ | ⟨-, refusal, hresult, htext⟩⟩ :=
    faithful_writeAll target program.nodes statement h
  · simp [hfalse] at hmarker
  · have hfailure : (renderAt (programEnv target program.nodes).1 program.nodes
        (programEnv target program.nodes).2 isFirst statement.node node).failure? =
          some refusal := by simp [failure?, hresult]
    refine ⟨node, refusal, hnode, ?_, htext⟩
    rw [refusal?, failureAt, hnode, Option.bind_some]
    exact (failure?_renderNode _ _ _ isFirst node).symm.trans hfailure

theorem refusal_mem_diagnostics {refusal : Diagnostic}
    (hposition : position ∈ (order program.nodes).order)
    (h : refusal? target program.nodes position = some refusal) :
    refusal.withSubject (nameAt program.nodes position) ∈
      (assemble program target).diagnostics := by
  rw [assemble_diagnostics]
  exact List.mem_append_right _ (List.mem_filterMap.mpr ⟨position, hposition, by simp [h]⟩)

/-- Each declaration that a statement reads has a statement before it: one of its own if it can be
rendered, and else a marker, with an error under its name. -/
theorem reads_stated_before (program : Bound.Program) (target : Target)
    (before after : List Statement) (statement : Statement)
    (h : (assemble program target).statements = before ++ statement :: after) :
    ∀ read ∈ (dependencyEdges program.nodes).targets statement.node,
      ∃ earlier ∈ before, earlier.node = read ∧
        (refusal? target program.nodes read = none ∧ earlier.isMarker = false ∨
          ∃ refusal, refusal? target program.nodes read = some refusal ∧
            earlier.isMarker = true ∧ refusal.severity = .error ∧
            refusal.kind = .unsupportedExpression ∧
            refusal.withSubject (nameAt program.nodes read) ∈
              (assemble program target).diagnostics) := by
  intro read hread
  have hbefore := reads_before_order (order_eq_of_statements h) read hread
  obtain ⟨earlier, hearlier, rfl⟩ := List.mem_map.mp hbefore
  have hmem : earlier ∈ (assemble program target).statements := by simp [h, hearlier]
  obtain ⟨horder, hmarker⟩ := isMarker_of_mem_statements hmem
  refine ⟨earlier, hearlier, rfl, ?_⟩
  cases hrefusal : refusal? target program.nodes earlier.node with
  | none => exact .inl ⟨rfl, by simp [hmarker, hrefusal]⟩
  | some refusal =>
    obtain ⟨hseverity, hkind⟩ := onlyUnsupported_failureAt hrefusal
    exact .inr ⟨refusal, rfl, by simp [hmarker, hrefusal], hseverity, hkind,
      refusal_mem_diagnostics horder hrefusal⟩

def unsayableChoice : Program :=
  ⟨[.variable "choice" (.conditional (.literal (.bool true) none) (.literal (.string "a") none)
      (.literal (.string "b") none) none),
    .output "result" (.access ⟨"choice", []⟩ none)]⟩

def loweredChoice : Bound.Program := Lowering.lower (Binding.bind unsayableChoice {}).1

theorem statements_loweredChoice : ∃ marker reader,
    (assemble loweredChoice .go).statements = [marker, reader] ∧ marker.mark = (0, true) ∧
      reader.mark = (1, false) := by
  have hmarks : (assemble loweredChoice .go).statements.map Statement.mark =
      [(0, true), (1, false)] := by decide +kernel
  obtain ⟨marker, rest, hstatements, hmarker, hrest⟩ := List.map_eq_cons_iff.mp hmarks
  obtain ⟨reader, none, rfl, hreader, hnone⟩ := List.map_eq_cons_iff.mp hrest
  obtain rfl := List.map_eq_nil_iff.mp hnone
  exact ⟨marker, reader, hstatements, hmarker, hreader⟩

theorem edges_loweredChoice : dependencyEdges loweredChoice.nodes = [[], [0]] := by decide +kernel

theorem reads_loweredChoice {reader : Statement} (h : reader.mark = (1, false)) :
    0 ∈ (dependencyEdges loweredChoice.nodes).targets reader.node := by
  rw [edges_loweredChoice, (Prod.mk.inj h).1]
  decide

theorem reads_stated_before_loweredChoice : ∃ before statement after,
    (assemble loweredChoice .go).statements = before ++ statement :: after ∧
      0 ∈ (dependencyEdges loweredChoice.nodes).targets statement.node ∧
      ∃ earlier ∈ before, earlier.node = 0 ∧ earlier.isMarker = true ∧
        ∃ diagnostic ∈ (assemble loweredChoice .go).diagnostics,
          diagnostic.subject = some "choice" ∧ diagnostic.kind = .unsupportedExpression := by
  obtain ⟨marker, reader, hstatements, hmarker, hreader⟩ := statements_loweredChoice
  have hread := reads_loweredChoice hreader
  refine ⟨[marker], reader, [], hstatements, hread, ?_⟩
  obtain ⟨earlier, hearlier, hnode, ⟨-, hreal⟩ | ⟨refusal, -, hearlierMarker, -, hkind, hreport⟩⟩ :=
    reads_stated_before loweredChoice .go [marker] [] reader hstatements 0 hread
  · rw [List.mem_singleton.mp hearlier, (Prod.mk.inj hmarker).2] at hreal
    simp at hreal
  · exact ⟨earlier, hearlier, hnode, hearlierMarker, _, hreport, rfl, hkind⟩

theorem not_all_reads_stated_unsayableChoice :
    hasErrors (Binding.bind unsayableChoice {}).2 = false ∧
    ¬ ∀ before statement after,
      (assemble (Lowering.lower (Binding.bind unsayableChoice {}).1) .go).statements =
        before ++ statement :: after → statement.isMarker = false →
      ∀ read ∈ (dependencyEdges
          (Lowering.lower (Binding.bind unsayableChoice {}).1).nodes).targets statement.node,
        ∃ earlier ∈ before, earlier.node = read ∧ earlier.isMarker = false := by
  refine ⟨by decide +kernel, fun h => ?_⟩
  obtain ⟨marker, reader, hstatements, hmarker, hreader⟩ := statements_loweredChoice
  obtain ⟨earlier, hearlier, -, hplain⟩ := h [marker] reader [] hstatements
    (Prod.mk.inj hreader).2 0 (reads_loweredChoice hreader)
  obtain rfl := List.mem_singleton.mp hearlier
  simp [(Prod.mk.inj hmarker).2] at hplain

end Provision.Assembly
