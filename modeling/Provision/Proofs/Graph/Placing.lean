import Mathlib.Data.List.Perm.Subperm
import Mathlib.Order.Bounds.Basic
import Provision.Graph.Ordering
import Provision.Proofs.Graph.Condensation

/-!
# Places by counters

A node is `Ready` when it has no place and all that it reads has one. `Placed` says how a list of
places comes about: each node was the least that was ready. The counters of a schedule always hold
the number of targets without a place, so no counter is taken below zero and the nodes in the list
`ready` are those that are ready.
-/

namespace Provision.Graph

structure Ready (edges : Edges) (excluded placed : List Nat) (node : Nat) : Prop where
  lt_length : node < edges.length
  not_excluded : node ∉ excluded
  not_placed : node ∉ placed
  reads : ∀ target ∈ edges.targets node, target ∈ placed

/-- Nodes as they are placed, the latest first: each is the least that is ready. -/
inductive Placed (edges : Edges) (excluded : List Nat) : List Nat → Prop
  | nil : Placed edges excluded []
  | cons {node : Nat} {placed : List Nat}
      (hleast : IsLeast {other | Ready edges excluded placed other} node)
      (h : Placed edges excluded placed) : Placed edges excluded (node :: placed)

variable {node : Nat}

namespace Placed

variable {edges : Edges} {excluded placed : List Nat} (h : Placed edges excluded placed)

include h

theorem nodup : placed.Nodup := by
  induction h with
  | nil => exact List.nodup_nil
  | cons hleast _ ih => exact List.nodup_cons.mpr ⟨hleast.1.not_placed, ih⟩

theorem lt_length (hnode : node ∈ placed) : node < edges.length := by
  induction h with
  | nil => simp at hnode
  | cons hleast _ ih =>
    rcases List.mem_cons.mp hnode with rfl | hnode
    · exact hleast.1.lt_length
    · exact ih hnode

theorem not_excluded (hnode : node ∈ placed) : node ∉ excluded := by
  induction h with
  | nil => simp at hnode
  | cons hleast _ ih =>
    rcases List.mem_cons.mp hnode with rfl | hnode
    · exact hleast.1.not_excluded
    · exact ih hnode

theorem mem_of_reads {target : Nat} (hnode : node ∈ placed) (hread : edges.Reads node target) :
    target ∈ placed := by
  induction h with
  | nil => simp at hnode
  | cons hleast _ ih =>
    rcases List.mem_cons.mp hnode with rfl | hnode
    · exact List.mem_cons_of_mem _ (hleast.1.reads target hread)
    · exact List.mem_cons_of_mem _ (ih hnode)

theorem mem_of_reaches {target : Nat} (hnode : node ∈ placed)
    (hreaches : edges.Reaches node target) : target ∈ placed := by
  induction hreaches with
  | refl => exact hnode
  | tail _ hread ih => exact h.mem_of_reads ih hread

theorem isLeast_of_append {later before : List Nat} (heq : placed = later ++ node :: before) :
    IsLeast {other | Ready edges excluded before other} node := by
  induction h generalizing later with
  | nil => simp at heq
  | cons hleast _ ih =>
    cases later with
    | nil =>
      obtain ⟨rfl, rfl⟩ := List.cons_eq_cons.mp heq
      exact hleast
    | cons latest later => exact ih (List.cons_eq_cons.mp heq).2

theorem length_le : placed.length ≤ edges.length := by
  have hsubset : placed ⊆ List.range edges.length :=
    fun node hnode => List.mem_range.mpr (h.lt_length hnode)
  simpa using (h.nodup.subperm hsubset).length_le

end Placed

variable {nodes : List Nat}

@[simp] theorem mem_insertNode {other : Nat} :
    other ∈ insertNode node nodes ↔ other = node ∨ other ∈ nodes := by
  induction nodes with
  | nil => simp [insertNode]
  | cons first rest ih =>
    simp only [insertNode]
    split
    · simp
    · split
      · simp_all
      · simp [ih, or_left_comm]

theorem pairwise_insertNode (node : Nat) (h : nodes.Pairwise (· < ·)) :
    (insertNode node nodes).Pairwise (· < ·) := by
  induction nodes with
  | nil => simp [insertNode]
  | cons first rest ih =>
    obtain ⟨hfirst, hrest⟩ := List.pairwise_cons.mp h
    simp only [insertNode]
    split
    case isTrue hlt =>
      refine List.pairwise_cons.mpr ⟨fun other hother => ?_, h⟩
      rcases List.mem_cons.mp hother with rfl | hother
      · exact hlt
      · exact Nat.lt_trans hlt (hfirst other hother)
    case isFalse hle =>
      split
      · exact h
      · refine List.pairwise_cons.mpr ⟨fun other hother => ?_, ih hrest⟩
        rcases mem_insertNode.mp hother with rfl | hother
        · omega
        · exact hfirst other hother

def missing (edges : Edges) (placed : List Nat) (node : Nat) : Nat :=
  (edges.targets node).countP (· ∉ placed)

private theorem missing_nil (edges : Edges) (node : Nat) :
    missing edges [] node = (edges.targets node).length := by
  simp [missing]

theorem missing_eq_zero {edges : Edges} {placed : List Nat} :
    missing edges placed node = 0 ↔ ∀ target ∈ edges.targets node, target ∈ placed := by
  simp [missing, List.countP_eq_zero]

theorem missing_eq_add_count {edges : Edges} {placed : List Nat} {latest : Nat}
    (hnew : latest ∉ placed) (node : Nat) :
    missing edges placed node =
      missing edges (latest :: placed) node + (edges.targets node).count latest := by
  unfold missing
  induction edges.targets node with
  | nil => rfl
  | cons target targets ih =>
    rw [List.countP_cons, List.countP_cons, List.count_cons, ih]
    by_cases heq : target = latest
    · simp [heq, hnew]
      omega
    · simp [heq]
      omega

private theorem count_flatMap_replicate (times : Nat → Nat) (hnodup : nodes.Nodup) (node : Nat) :
    (nodes.flatMap fun other => List.replicate (times other) other).count node =
      if node ∈ nodes then times node else 0 := by
  induction nodes with
  | nil => rfl
  | cons first rest ih =>
    obtain ⟨hfirst, hrest⟩ := List.nodup_cons.mp hnodup
    rw [List.flatMap_cons, List.count_append, ih hrest, List.count_replicate]
    by_cases heq : first = node
    · subst heq
      simp [hfirst]
    · simp [heq, Ne.symm heq]

variable {reader : Nat}

theorem count_readers {edges : Edges} (h : reader < edges.length) (node : Nat) :
    (edges.readers node).count reader = (edges.targets reader).count node := by
  rw [Edges.readers, Edges.nodes, count_flatMap_replicate _ List.nodup_range]
  simp [h]

theorem mem_readers {edges : Edges} :
    reader ∈ edges.readers node ↔ reader < edges.length ∧ edges.Reads reader node := by
  simp only [Edges.readers, Edges.nodes, List.mem_flatMap, List.mem_range, List.mem_replicate,
    Edges.Reads, List.count_eq_zero, ne_eq, not_not]
  constructor
  · rintro ⟨_, hlt, hread, rfl⟩
    exact ⟨hlt, hread⟩
  · rintro ⟨hlt, hread⟩
    exact ⟨reader, hlt, hread, rfl⟩

namespace Schedule

structure Valid (edges : Edges) (excluded readers : List Nat) (schedule : Schedule) : Prop where
  remaining : ∀ node < edges.length, schedule.remaining[node]? =
    some (missing edges schedule.placed node + readers.count node)
  sorted : schedule.ready.Pairwise (· < ·)
  mem_ready : ∀ node, node ∈ schedule.ready ↔
    Ready edges excluded schedule.placed node ∧ node ∉ readers
  placed : Placed edges excluded schedule.placed
  readers : ∀ reader ∈ readers, reader < edges.length ∧ reader ∉ schedule.placed

variable {edges : Edges} {excluded readers : List Nat} {schedule : Schedule}

theorem valid_start (edges : Edges) (excluded : List Nat) :
    Valid edges excluded [] (start edges excluded) := by
  have hremaining : ∀ node < edges.length,
      (start edges excluded).remaining[node]? = some (edges.targets node).length := by
    intro node hnode
    simp [start, Edges.targets, hnode]
  constructor
  case remaining =>
    intro node hnode
    rw [hremaining node hnode]
    simp [start, missing_nil]
  case sorted => exact List.pairwise_lt_range.filter _
  case mem_ready =>
    intro node
    constructor
    · intro hnode
      simp only [start, List.mem_filter, Edges.nodes, List.mem_range] at hnode
      obtain ⟨hlt, hready⟩ := hnode
      simp [hlt] at hready
      exact ⟨⟨hlt, hready.2, by simp [start], by simp [Edges.targets, hlt, hready.1]⟩, by simp⟩
    · rintro ⟨hready, -⟩
      have hempty : edges.targets node = [] :=
        List.eq_nil_iff_forall_not_mem.mpr fun target htarget => by
          simpa [start] using hready.reads target htarget
      have hcount := hremaining node hready.lt_length
      rw [hempty] at hcount
      simp only [start, List.length_nil] at hcount
      simp only [start, List.mem_filter, Edges.nodes, List.mem_range, hcount]
      simp [hready.lt_length, hready.not_excluded]
  case placed => exact .nil
  case readers => simp

theorem Valid.exists_release (valid : Valid edges excluded (reader :: readers) schedule) :
    ∃ next, release excluded schedule reader = some next ∧
      next.placed = schedule.placed ∧ Valid edges excluded readers next := by
  obtain ⟨hlt, hnew⟩ := valid.readers reader List.mem_cons_self
  let count := missing edges schedule.placed reader + readers.count reader
  have hcounter : schedule.remaining[reader]? = some (count + 1) := by
    rw [valid.remaining reader hlt, List.count_cons_self]
    rfl
  have hsize : reader < schedule.remaining.size := (Array.getElem?_eq_some_iff.mp hcounter).1
  have hready : Ready edges excluded schedule.placed reader ∧ reader ∉ readers ↔
      count = 0 ∧ reader ∉ excluded := by
    simp only [count, Nat.add_eq_zero_iff, missing_eq_zero, List.count_eq_zero]
    constructor
    · rintro ⟨hready, hmem⟩
      exact ⟨⟨hready.reads, hmem⟩, hready.not_excluded⟩
    · rintro ⟨⟨hreads, hmem⟩, hexcluded⟩
      exact ⟨⟨hlt, hexcluded, hnew, hreads⟩, hmem⟩
  let next : Schedule :=
    { schedule with
      remaining := schedule.remaining.setIfInBounds reader count
      ready := if count = 0 ∧ reader ∉ excluded then insertNode reader schedule.ready
        else schedule.ready }
  refine ⟨next, by simp only [release, hcounter, next], rfl, ?_⟩
  constructor
  case remaining =>
    intro node hnode
    by_cases heq : reader = node
    · subst heq
      simp [next, hsize, count]
    · simp [next, Array.getElem?_setIfInBounds_ne heq, valid.remaining node hnode, heq]
  case sorted =>
    dsimp only [next]
    split
    · exact pairwise_insertNode reader valid.sorted
    · exact valid.sorted
  case mem_ready =>
    intro node
    have hold := valid.mem_ready node
    by_cases heq : node = reader
    · subst heq
      rw [hready]
      dsimp only [next]
      split <;> simp_all
    · have hcons : node ∉ reader :: readers ↔ node ∉ readers := by simp [heq]
      rw [hcons] at hold
      dsimp only [next]
      split
      · simpa [heq] using hold
      · exact hold
  case placed => exact valid.placed
  case readers => exact fun other hother => valid.readers other (List.mem_cons_of_mem _ hother)

theorem Valid.exists_foldlM (valid : Valid edges excluded readers schedule) :
    ∃ next, readers.foldlM (release excluded) schedule = some next ∧
      next.placed = schedule.placed ∧ Valid edges excluded [] next := by
  induction readers generalizing schedule with
  | nil => exact ⟨schedule, rfl, rfl, valid⟩
  | cons reader readers ih =>
    obtain ⟨released, hrelease, hplaced, hvalid⟩ := valid.exists_release
    obtain ⟨next, hfold, hsame, hnext⟩ := ih hvalid
    exact ⟨next, by simp [hrelease, hfold], hsame.trans hplaced, hnext⟩

theorem Valid.place {ready : List Nat} (valid : Valid edges excluded [] schedule)
    (hready : schedule.ready = node :: ready) :
    Valid edges excluded (edges.readers node)
      { schedule with ready, placed := node :: schedule.placed } := by
  have hmem : ∀ other, other ∈ node :: ready ↔ Ready edges excluded schedule.placed other := by
    intro other
    rw [← hready, valid.mem_ready]
    simp
  have hnode : Ready edges excluded schedule.placed node := (hmem node).mp List.mem_cons_self
  obtain ⟨hfirst, hsorted⟩ := List.pairwise_cons.mp (hready ▸ valid.sorted)
  constructor
  case remaining =>
    intro other hother
    rw [valid.remaining other hother, count_readers hother]
    simpa using missing_eq_add_count hnode.not_placed other
  case sorted => exact hsorted
  case mem_ready =>
    intro other
    dsimp only
    rw [mem_readers]
    constructor
    · intro hother
      have hbefore := (hmem other).mp (List.mem_cons_of_mem _ hother)
      have hne : other ≠ node := (Nat.ne_of_lt (hfirst other hother)).symm
      refine ⟨⟨hbefore.lt_length, hbefore.not_excluded, ?_, ?_⟩, ?_⟩
      · simp [hne, hbefore.not_placed]
      · exact fun target htarget => List.mem_cons_of_mem _ (hbefore.reads target htarget)
      · exact fun hreads => hnode.not_placed (hbefore.reads node hreads.2)
    · rintro ⟨hafter, hnot⟩
      have hne : other ≠ node := List.ne_of_not_mem_cons hafter.not_placed
      have hbefore : Ready edges excluded schedule.placed other := by
        refine ⟨hafter.lt_length, hafter.not_excluded, ?_, fun target htarget => ?_⟩
        · exact List.not_mem_of_not_mem_cons hafter.not_placed
        · refine (List.mem_cons.mp (hafter.reads target htarget)).resolve_left ?_
          rintro rfl
          exact hnot ⟨hafter.lt_length, htarget⟩
      exact (List.mem_cons.mp ((hmem other).mpr hbefore)).resolve_left hne
  case placed =>
    refine .cons ⟨hnode, fun other hother => ?_⟩ valid.placed
    rcases List.mem_cons.mp ((hmem other).mpr hother) with rfl | hother
    · exact Nat.le_refl _
    · exact Nat.le_of_lt (hfirst other hother)
  case readers =>
    intro reader hreader
    obtain ⟨hlt, hreads⟩ := mem_readers.mp hreader
    refine ⟨hlt, fun hplaced => ?_⟩
    rcases List.mem_cons.mp hplaced with rfl | hplaced
    · exact hnode.not_placed (hnode.reads reader hreads)
    · exact hnode.not_placed (valid.placed.mem_of_reads hplaced hreads)

theorem Valid.exists_step (valid : Valid edges excluded [] schedule) (h : schedule.ready ≠ []) :
    ∃ next, schedule.step edges excluded = some next ∧
      next.placed.length = schedule.placed.length + 1 ∧ Valid edges excluded [] next := by
  obtain ⟨node, ready, hready⟩ := List.exists_cons_of_ne_nil h
  obtain ⟨next, hfold, hplaced, hnext⟩ := (valid.place hready).exists_foldlM
  exact ⟨next, by simp only [step, hready, hfold], by simp [hplaced], hnext⟩

theorem Valid.exists_run {fuel : Nat} (valid : Valid edges excluded [] schedule)
    (hfuel : edges.length ≤ schedule.placed.length + fuel) :
    ∃ final, run edges excluded fuel schedule = some final ∧ final.ready = [] ∧
      Valid edges excluded [] final := by
  induction fuel generalizing schedule with
  | zero =>
    have hready : schedule.ready = [] := by
      by_contra h
      obtain ⟨next, -, hlength, hnext⟩ := valid.exists_step h
      have hle := hnext.placed.length_le
      omega
    exact ⟨schedule, by simp [run, hready], hready, valid⟩
  | succ fuel ih =>
    by_cases hready : schedule.ready = []
    · exact ⟨schedule, by simp [run, hready], hready, valid⟩
    · obtain ⟨next, hstep, hlength, hnext⟩ := valid.exists_step hready
      obtain ⟨final, hrun, hfinal⟩ := ih hnext (by omega)
      exact ⟨final, by simp [run, hready, hstep, hrun], hfinal⟩

end Schedule

open Schedule

theorem exists_placed (edges : Edges) (excluded : List Nat) :
    ∃ placed, schedule? edges excluded = some placed.reverse ∧ Placed edges excluded placed ∧
      ∀ node, ¬ Ready edges excluded placed node := by
  obtain ⟨final, hrun, hready, valid⟩ :=
    (valid_start edges excluded).exists_run (Nat.le_add_left edges.length _)
  refine ⟨final.placed, by simp [schedule?, hrun], valid.placed, fun node hnode => ?_⟩
  have hmem := (valid.mem_ready node).mpr ⟨hnode, List.not_mem_nil⟩
  simp [hready] at hmem

end Provision.Graph
