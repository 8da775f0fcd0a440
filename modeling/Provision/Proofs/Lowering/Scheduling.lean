import Provision.Proofs.Graph.Ordering
import Provision.Proofs.Lowering.Paths

/-!
# The order of a lowered program

Lowering moves what an expression captures in front of the rest of it, so a declaration may meet
the names that it reads in another order. An ordering does not depend on that: it is determined by
which declarations read which.
-/

namespace Provision.Graph

structure SameReads (edges other : Edges) : Prop where
  length : edges.length = other.length
  reads : ∀ source target, edges.Reads source target ↔ other.Reads source target

namespace SameReads

variable {edges other : Edges} (h : SameReads edges other)

include h

theorem symm : SameReads other edges :=
  ⟨h.length.symm, fun source target => (h.reads source target).symm⟩

theorem reads_eq : edges.Reads = other.Reads :=
  funext fun source => funext fun target => propext (h.reads source target)

theorem reaches_eq : edges.Reaches = other.Reaches := by
  unfold Edges.Reaches
  rw [h.reads_eq]

theorem onCycle_eq : edges.OnCycle = other.OnCycle := by
  funext node
  unfold Edges.OnCycle
  rw [h.reads_eq]

end SameReads

namespace Ordered

variable {edges other : Edges} {isOutput : Nat → Bool} {placed placed' : List Nat}
  {ordering ordering' : Ordering} (h : Ordered edges isOutput placed ordering)
  (h' : Ordered other isOutput placed' ordering') (hsame : SameReads edges other)

include h h' hsame

private theorem mem_placed_iff (node : Nat) : node ∈ placed ↔ node ∈ placed' := by
  rw [h.mem_placed, h'.mem_placed, hsame.length, hsame.reaches_eq, hsame.onCycle_eq]

theorem mem_flatten_iff (node : Nat) :
    node ∈ ordering.cycles.flatten ↔ node ∈ ordering'.cycles.flatten := by
  rw [h.mem_cycles, h'.mem_cycles, hsame.onCycle_eq]

theorem ready_iff {before : List Nat} {node : Nat} :
    Ready edges ordering.cycles.flatten before node ↔
      Ready other ordering'.cycles.flatten before node := by
  have hreads : (∀ target ∈ edges.targets node, target ∈ before) ↔
      ∀ target ∈ other.targets node, target ∈ before :=
    forall_congr' fun target => imp_congr_left (hsame.reads node target)
  constructor
  · rintro ⟨hlt, hexcluded, hnew, htargets⟩
    exact ⟨hsame.length ▸ hlt, mt (h.mem_flatten_iff h' hsame node).mpr hexcluded, hnew,
      hreads.mp htargets⟩
  · rintro ⟨hlt, hexcluded, hnew, htargets⟩
    exact ⟨hsame.length.symm ▸ hlt, mt (h.mem_flatten_iff h' hsame node).mp hexcluded, hnew,
      hreads.mpr htargets⟩

theorem placed_eq : placed = placed' := by
  have hperm : placed.Perm placed' :=
    (List.perm_ext_iff_of_nodup h.nodup h'.nodup).mpr (h.mem_placed_iff h' hsame)
  -- Both go on after what they share with the least node that is ready there.
  have hrest : ∀ rest before rest', placed = before ++ rest → placed' = before ++ rest' →
      rest = rest' := by
    intro rest
    induction rest with
    | nil =>
      intro before rest' hplaced hplaced'
      rw [hplaced, hplaced', List.perm_append_left_iff] at hperm
      exact hperm.nil_eq
    | cons node rest ih =>
      intro before rest' hplaced hplaced'
      cases rest' with
      | nil =>
        rw [hplaced, hplaced', List.perm_append_left_iff] at hperm
        simp at hperm
      | cons node' rest' =>
        obtain ⟨hready, hleast⟩ := h.isLeast before node rest hplaced
        obtain ⟨hready', hleast'⟩ := h'.isLeast before node' rest' hplaced'
        have hle : node ≤ node' := hleast ((h.ready_iff h' hsame).mpr hready')
        have hge : node' ≤ node := hleast' ((h.ready_iff h' hsame).mp hready)
        obtain rfl : node = node' := by omega
        rw [ih (before ++ [node]) rest' (by simp [hplaced]) (by simp [hplaced'])]
  exact hrest placed [] placed' rfl rfl

theorem mem_cycles_of_mem {cycle : List Nat} (hcycle : cycle ∈ ordering.cycles) :
    cycle ∈ ordering'.cycles := by
  obtain ⟨hne, hmembers⟩ := h.component cycle hcycle
  obtain ⟨first, hfirst⟩ := List.exists_mem_of_ne_nil cycle hne
  obtain ⟨cycle', hcycle', hfirst'⟩ := List.mem_flatten.mp
    ((h.mem_flatten_iff h' hsame first).mp (List.mem_flatten.mpr ⟨cycle, hcycle, hfirst⟩))
  -- Both hold what the first node shares a cycle with, in increasing order.
  have hmem : ∀ node, node ∈ cycle ↔ node ∈ cycle' := by
    intro node
    rw [hmembers first hfirst, (h'.component cycle' hcycle').2 first hfirst', hsame.reaches_eq]
  have hincreasing := h.increasing cycle hcycle
  have hincreasing' := h'.increasing cycle' hcycle'
  have hperm : cycle.Perm cycle' :=
    (List.perm_ext_iff_of_nodup (hincreasing.imp Nat.ne_of_lt)
      (hincreasing'.imp Nat.ne_of_lt)).mpr hmem
  have heq : cycle = cycle' :=
    hperm.eq_of_pairwise (fun _ _ _ _ hlt hgt => by omega) hincreasing hincreasing'
  exact heq ▸ hcycle'

omit h' hsame in
theorem nodup_cycle_list : ordering.cycles.Nodup := by
  refine (List.nodup_flatten.mp h.nodup_cycles).2.imp_of_mem ?_
  rintro cycle _ hcycle - hdisjoint rfl
  obtain ⟨node, hnode⟩ := List.exists_mem_of_ne_nil cycle (h.component cycle hcycle).1
  exact hdisjoint hnode hnode

theorem cycles_eq : ordering.cycles = ordering'.cycles := by
  have hperm : ordering.cycles.Perm ordering'.cycles :=
    (List.perm_ext_iff_of_nodup h.nodup_cycle_list h'.nodup_cycle_list).mpr fun cycle =>
      ⟨h.mem_cycles_of_mem h' hsame, h'.mem_cycles_of_mem h hsame.symm⟩
  exact hperm.eq_of_pairwise (fun _ _ _ _ => Precedes.antisymm) h.sorted h'.sorted

theorem blocked_eq : ordering.blocked.map Prod.fst = ordering'.blocked.map Prod.fst := by
  rw [h.blocked, h'.blocked, h.placed_eq h' hsame, h.cycles_eq h' hsame, Edges.nodes, Edges.nodes,
    hsame.length]

theorem order_eq : ordering.order = ordering'.order := by
  rw [h.order, h'.order, h.placed_eq h' hsame]

end Ordered

end Provision.Graph

namespace Provision.Bound.Node

private theorem nodup_eraseDups : (names : List String) → names.eraseDups.Nodup
  | [] => by simp
  | name :: rest => by
    rw [List.eraseDups_cons, List.nodup_cons]
    exact ⟨by simp [List.mem_eraseDups], nodup_eraseDups _⟩
termination_by names => names.length
decreasing_by exact Nat.lt_succ_of_le (List.length_filter_le _ _)

theorem nodup_dependencies (node : Node) : node.dependencies.Nodup := nodup_eraseDups _

@[simp] theorem name_map (f : Expr → Expr) (node : Node) : (node.map f).name = node.name := rfl

@[simp] theorem isOutput_map (f : Expr → Expr) (node : Node) :
    (node.map f).isOutput = node.isOutput := by
  obtain ⟨name, body⟩ := node
  cases body <;> rfl

end Provision.Bound.Node

namespace Provision.Lowering

open Provision.Graph

variable (program : Bound.Program)

theorem getElem?_lower (position : Nat) :
    (lower program).nodes[position]? = program.nodes[position]?.map (·.map lowerInput) := by
  rw [lower, List.getElem?_map]

private theorem isOutputAt_lower : isOutputAt (lower program).nodes = isOutputAt program.nodes := by
  funext position
  simp [isOutputAt, getElem?_lower, Option.any_map]

theorem declarationOf_lower (name : String) :
    declarationOf (lower program).nodes name = declarationOf program.nodes name := by
  simp [declarationOf, lower, List.findIdx?_map, Function.comp_def]

theorem mem_dependencies_lowerInput (node : Bound.Node) (name : String) :
    name ∈ (node.map lowerInput).dependencies ↔ name ∈ node.dependencies := by
  have hreads : ∀ path, (∃ expr ∈ (node.map lowerInput).expressions, expr.ReadsPath path) ↔
      ∃ expr ∈ node.expressions, expr.ReadsPath path := by
    intro path
    simp [readsPath_lowerInput]
  simp only [Bound.Node.mem_dependencies, hreads]

private theorem perm_dependencies_lowerInput (node : Bound.Node) :
    (node.map lowerInput).dependencies.Perm node.dependencies :=
  (List.perm_ext_iff_of_nodup (node.map lowerInput).nodup_dependencies
    node.nodup_dependencies).mpr (mem_dependencies_lowerInput node)

private theorem sameReads_lower :
    SameReads (dependencyEdges (lower program).nodes) (dependencyEdges program.nodes) := by
  refine ⟨by simp [lower], fun source target => ?_⟩
  rw [reads_dependencyEdges_iff, reads_dependencyEdges_iff]
  simp only [getElem?_lower, declarationOf_lower, Option.map_eq_some_iff]
  constructor
  · rintro ⟨_, ⟨node, hnode, rfl⟩, name, hname, htarget⟩
    exact ⟨node, hnode, name, (mem_dependencies_lowerInput node name).mp hname, htarget⟩
  · rintro ⟨node, hnode, name, hname, htarget⟩
    exact ⟨_, ⟨node, hnode, rfl⟩, name, (mem_dependencies_lowerInput node name).mpr hname, htarget⟩

/-- A lowered program is ordered as the program was: the same declarations in the same places, the
same cycles and the same declarations left out. Each declaration reads the names that it read. -/
theorem order_lower :
    (order (lower program).nodes).order = (order program.nodes).order ∧
    (order (lower program).nodes).cycles = (order program.nodes).cycles ∧
    (order (lower program).nodes).blocked.map Prod.fst =
      (order program.nodes).blocked.map Prod.fst ∧
    List.Forall₂ (fun lowered node => lowered.name = node.name ∧
      lowered.dependencies.Perm node.dependencies) (lower program).nodes program.nodes := by
  obtain ⟨-, placed, hlowered⟩ := exists_order (lower program).nodes
  obtain ⟨-, placed', hbound⟩ := exists_order program.nodes
  rw [isOutputAt_lower] at hlowered
  have hsame := sameReads_lower program
  refine ⟨hlowered.order_eq hbound hsame, hlowered.cycles_eq hbound hsame,
    hlowered.blocked_eq hbound hsame, ?_⟩
  rw [lower, List.forall₂_map_left_iff, List.forall₂_same]
  exact fun node _ => ⟨rfl, perm_dependencies_lowerInput node⟩

def schemedAddress : Bound.Node :=
  ⟨"address", .variable (.template
    [.expr (.access ⟨"scheme", .config, []⟩ .string),
      .expr (.access ⟨"site", .resource "aws:s3:Site", [.field "host"]⟩ (.eventual .string))]
    (.eventual .string))⟩

example : schemedAddress.dependencies = ["scheme", "site"] ∧
    (schemedAddress.map lowerInput).dependencies = ["site", "scheme"] := by
  decide +kernel

end Provision.Lowering
