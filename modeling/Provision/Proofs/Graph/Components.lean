import Mathlib.Algebra.Order.BigOperators.Group.Finset
import Provision.Proofs.Graph.Closing

/-!
# The components that are found

Each step of the search takes one unit off its potential, so the search ends within the steps it is
given. It leaves a valid search without work, in which every node that was visited has its
component.
-/

namespace Provision.Graph

open Finset (range)

namespace Search

/-! ## Potential -/

def cost (edges : Edges) (node : Nat) : Nat := (edges.targets node).length + 1

def unseenCost (edges : Edges) (search : Search) : Nat :=
  ∑ node ∈ range edges.length, if search.marks[node]? = some .unseen then cost edges node else 0

def workCost (edges : Edges) (work : List (Nat × Nat)) : Nat :=
  work.foldr (fun frame total => (edges.targets frame.1).length - frame.2 + 1 + total) 0

def potential (edges : Edges) (search : Search) : Nat :=
  unseenCost edges search + workCost edges search.work

section Potential

variable {edges : Edges} {search other : Search} {node position : Nat} {rest : List (Nat × Nat)}

theorem sum_cost (edges : Edges) : ∑ node ∈ range edges.length, cost edges node = edges.size := by
  induction edges with
  | nil => rfl
  | cons targets edges ih =>
    rw [List.length_cons, Finset.sum_range_succ', Edges.size, List.foldr_cons, Nat.add_comm]
    exact congrArg (targets.length + 1 + ·) ih

theorem unseenCost_le (edges : Edges) (search : Search) : unseenCost edges search ≤ edges.size := by
  rw [← sum_cost]
  refine Finset.sum_le_sum fun node _ => ?_
  split
  · exact Nat.le_refl _
  · exact Nat.zero_le _

theorem unseenCost_congr (h : ∀ node : Nat,
    other.marks[node]? = some .unseen ↔ search.marks[node]? = some .unseen) :
    unseenCost edges other = unseenCost edges search := by
  simp only [unseenCost, h]

theorem potential_enter (hsize : search.marks.size = edges.length)
    (hnew : search.marks[node]? = some .unseen) :
    potential edges (search.enter node) = potential edges search := by
  have hnode : node < search.marks.size := (Array.getElem?_eq_some_iff.mp hnew).1
  have hmem : node ∈ range edges.length := by
    rw [Finset.mem_range, ← hsize]
    exact hnode
  have hrest : ∑ other ∈ (range edges.length).erase node,
      (if (search.enter node).marks[other]? = some .unseen then cost edges other else 0) =
      ∑ other ∈ (range edges.length).erase node,
        if search.marks[other]? = some .unseen then cost edges other else 0 := by
    refine Finset.sum_congr rfl fun other hother => ?_
    rw [marks_enter hnode, if_neg (Finset.ne_of_mem_erase hother)]
  have hafter : unseenCost edges (search.enter node) =
      ∑ other ∈ (range edges.length).erase node,
        if search.marks[other]? = some .unseen then cost edges other else 0 := by
    rw [unseenCost, ← Finset.add_sum_erase _ _ hmem, hrest, marks_enter hnode]
    simp
  have hbefore : unseenCost edges search = cost edges node +
      ∑ other ∈ (range edges.length).erase node,
        if search.marks[other]? = some .unseen then cost edges other else 0 := by
    rw [unseenCost, ← Finset.add_sum_erase _ _ hmem, if_pos hnew]
  have hwork : workCost edges (search.enter node).work =
      cost edges node + workCost edges search.work := by
    simp [workCost, Search.enter, cost]
  rw [potential, potential, hafter, hbefore, hwork]
  omega

theorem potential_advance (hwork : search.work = (node, position) :: rest)
    (h : position < (edges.targets node).length) :
    potential edges { search with work := (node, position + 1) :: rest } <
      potential edges search := by
  have hcost : workCost edges ((node, position + 1) :: rest) < workCost edges search.work := by
    rw [hwork]
    simp only [workCost, List.foldr_cons]
    omega
  exact Nat.add_lt_add_left hcost _

theorem workCost_lt (hwork : search.work = (node, position) :: rest) :
    workCost edges rest < workCost edges search.work := by
  rw [hwork]
  simp only [workCost, List.foldr_cons]
  omega

end Potential

/-! ## Steps -/

structure Advances (edges : Edges) (search next : Search) : Prop where
  valid : Valid edges next
  potential_lt : potential edges next < potential edges search
  unseen : ∀ node : Nat, next.marks[node]? = some .unseen → search.marks[node]? = some .unseen

section Step

variable {edges : Edges} {search : Search} {node position target : Nat}
  {rest : List (Nat × Nat)}

theorem advances_enter (valid : Valid edges search)
    (hwork : search.work = (node, position) :: rest)
    (htarget : (edges.targets node)[position]? = some target)
    (hnew : search.marks[target]? = some .unseen) :
    Advances edges search (enter { search with work := (node, position + 1) :: rest } target) := by
  have hread : edges.Reads node target := List.mem_of_getElem? htarget
  have hactive : node ∈ search.active := by simp [Search.active, hwork]
  have hsize : target < search.marks.size := (Array.getElem?_eq_some_iff.mp hnew).1
  have hne : node ≠ target := by
    rintro rfl
    obtain ⟨index, lowlink, hmark⟩ :=
      (valid.mem_stack node).mp (valid.mem_stack_of_active hactive)
    simp [hnew] at hmark
  have hentered : Valid edges (search.enter target) := by
    refine valid.enter hnew fun top htop => ?_
    rw [Search.active, hwork, List.map_cons, List.head?_cons, Option.mem_some_iff] at htop
    rwa [← htop]
  -- Entering first and then looking past the target gives the same search.
  have hadvanced : Valid edges
      { search.enter target with work := [(target, 0)] ++ (node, position + 1) :: rest } := by
    refine hentered.advance [(target, 0)] (by simp [Search.enter, hwork]) htarget ?_ fun _ => ?_
    · simp [marks_enter hsize]
    · rw [(index_enter_self hsize).1, (index_enter_of_ne hsize hne).2]
      have hle := valid.lowlink_le node hactive
      have hlt := valid.index_lt node (valid.mem_stack_of_active hactive)
      omega
  refine ⟨hadvanced, ?_, fun other hother => ?_⟩
  · have henter : potential edges (enter { search with work := (node, position + 1) :: rest }
        target) = potential edges { search with work := (node, position + 1) :: rest } :=
      potential_enter valid.size hnew
    rw [henter]
    exact potential_advance hwork (List.getElem?_eq_some_iff.mp htarget).1
  · have hmarks : (search.enter target).marks[other]? = some .unseen := hother
    rw [marks_enter hsize] at hmarks
    split at hmarks
    · simp at hmarks
    · exact hmarks

theorem exists_advances_lower (valid : Valid edges search)
    (hwork : search.work = (node, position) :: rest)
    (htarget : (edges.targets node)[position]? = some target) {index lowlink : Nat}
    (hmark : search.marks[target]? = some (.pending index lowlink)) :
    ∃ lowered, search.lower node index = some lowered ∧
      Advances edges search { lowered with work := (node, position + 1) :: rest } := by
  have hactive : node ∈ search.active := by simp [Search.active, hwork]
  have hpending := (valid.mem_stack node).mp (valid.mem_stack_of_active hactive)
  have hindex : search.index target = index := (index_of_pending hmark).1
  obtain ⟨lowered, hlower, h⟩ := exists_lower hpending index
  have hlowered : Valid edges lowered := by
    refine valid.lower h ⟨target, (valid.mem_stack target).mpr ⟨_, _, hmark⟩, hindex, ?_⟩
    exact .single (List.mem_of_getElem? htarget)
  refine ⟨lowered, hlower, ?_, ?_, fun other => (h.unseen other).mp⟩
  · refine hlowered.advance [] (h.work.trans hwork) htarget ?_ fun _ => ?_
    · rw [ne_eq, h.unseen, hmark]
      simp
    · rw [h.lowlink, if_pos rfl, h.index, hindex]
      exact Nat.min_le_right _ _
  · have hcost := potential_advance (h.work.trans hwork) (List.getElem?_eq_some_iff.mp htarget).1
    have hsame : potential edges lowered = potential edges search := by
      rw [potential, potential, unseenCost_congr h.unseen, h.work]
    rwa [hsame] at hcost

theorem advances_settled (valid : Valid edges search)
    (hwork : search.work = (node, position) :: rest)
    (htarget : (edges.targets node)[position]? = some target)
    (hmark : search.marks[target]? = some .settled) :
    Advances edges search { search with work := (node, position + 1) :: rest } := by
  refine ⟨?_, potential_advance hwork (List.getElem?_eq_some_iff.mp htarget).1, fun _ => id⟩
  refine valid.advance [] hwork htarget (by simp [hmark]) fun hstack => ?_
  obtain ⟨index, lowlink, hpending⟩ := (valid.mem_stack target).mp hstack
  simp [hmark] at hpending

structure HandedOn (edges : Edges) (search : Search) (node : Nat) (rest : List (Nat × Nat))
    (lowered : Search) : Prop where
  valid : Valid edges lowered
  work : lowered.work = search.work
  unseen : ∀ other : Nat, lowered.marks[other]? = some .unseen ↔ search.marks[other]? = some .unseen
  index : lowered.index node = search.index node
  lowlink : lowered.lowlink node = search.lowlink node
  parent : ∀ parent ∈ (rest.map Prod.fst).head?, lowered.lowlink parent ≤ search.lowlink node

private theorem exists_lowerTop (valid : Valid edges search)
    (hwork : search.work = (node, position) :: rest) :
    ∃ lowered, search.lowerTop rest (search.lowlink node) = some lowered ∧
      HandedOn edges search node rest lowered := by
  have hnode : node ∈ search.active := by simp [Search.active, hwork]
  cases hrest : rest with
  | nil => exact ⟨search, rfl, valid, rfl, fun _ => Iff.rfl, rfl, rfl, by simp⟩
  | cons frame older =>
    have hparent : frame.1 ∈ rest.map Prod.fst := by simp [hrest]
    have hlt := valid.index_lt_top hwork hparent
    have hactive := mem_active_of_mem_rest hwork hparent
    have hstack := valid.mem_stack_of_active hactive
    obtain ⟨lowered, hlower, h⟩ :=
      exists_lower ((valid.mem_stack frame.1).mp hstack) (search.lowlink node)
    obtain ⟨low, hlow, hindex, hreaches⟩ := valid.lowlink_reached node hnode
    have hdown := valid.down frame.1 hactive node (valid.mem_stack_of_active hnode)
      (Nat.le_of_lt hlt)
    have hne : node ≠ frame.1 := by
      intro heq
      rw [← heq] at hlt
      exact Nat.lt_irrefl _ hlt
    refine ⟨lowered, hlower, valid.lower h ⟨low, hlow, hindex, hdown.trans hreaches⟩, h.work,
      h.unseen, h.index node, ?_, ?_⟩
    · rw [h.lowlink, if_neg hne]
    · simp only [List.map_cons, List.head?_cons, Option.mem_some_iff, forall_eq']
      rw [h.lowlink, if_pos rfl]
      exact Nat.min_le_right _ _

private theorem exists_advances_leave (hrange : edges.InRange) (valid : Valid edges search)
    (hwork : search.work = (node, position) :: rest)
    (hdone : (edges.targets node).length ≤ position) :
    ∃ next, search.leave node rest = some next ∧ Advances edges search next := by
  have hactive : node ∈ search.active := by simp [Search.active, hwork]
  obtain ⟨index, lowlink, hmark⟩ := (valid.mem_stack node).mp (valid.mem_stack_of_active hactive)
  obtain ⟨hindex, hlowlink⟩ := index_of_pending hmark
  obtain ⟨lowered, hlower, h⟩ := exists_lowerTop valid hwork
  have hcost : unseenCost edges search + workCost edges rest < potential edges search :=
    Nat.add_lt_add_left (workCost_lt hwork) _
  rw [hlowlink] at hlower
  by_cases heq : index = lowlink
  · have hstack : node ∈ lowered.stack := by
      refine h.valid.mem_stack_of_active ?_
      simp [h.work, hwork]
    obtain ⟨above, below, hsplit⟩ := List.append_of_mem hstack
    have hclosable : Closable edges lowered node position rest above below := by
      refine ⟨h.valid, h.work.trans hwork, hdone, ?_, hsplit⟩
      rw [h.lowlink, h.index, hindex, hlowlink, heq]
    have hunseen : ∀ other : Nat,
        (close { lowered with work := rest } node).marks[other]? = some .unseen ↔
          search.marks[other]? = some .unseen := by
      intro other
      rw [← h.unseen, hclosable.marks_close]
      split
      · rename_i hmember
        obtain ⟨index, lowlink, hpending⟩ :=
          (h.valid.mem_stack other).mp (hclosable.mem_members.mp hmember).1
        simp [hpending]
      · exact Iff.rfl
    refine ⟨close { lowered with work := rest } node, ?_, hclosable.valid_close hrange, ?_,
      fun other => (hunseen other).mp⟩
    · simp [leave, hmark, hlower, heq]
    · rw [potential, unseenCost_congr hunseen, hclosable.close_eq]
      exact hcost
  · have hle := valid.lowlink_le node hactive
    refine ⟨{ lowered with work := rest }, ?_, ?_, ?_, fun other => (h.unseen other).mp⟩
    · simp [leave, hmark, hlower, heq]
    · refine h.valid.leave (h.work.trans hwork) hdone ?_ ?_
      · rw [h.lowlink, h.index]
        omega
      · rw [h.lowlink]
        exact h.parent
    · have hsame : unseenCost edges { lowered with work := rest } = unseenCost edges search :=
        unseenCost_congr h.unseen
      rw [potential, hsame]
      exact hcost

theorem exists_step (hrange : edges.InRange) (valid : Valid edges search)
    (hwork : search.work ≠ []) :
    ∃ next, search.step edges = some next ∧ Advances edges search next := by
  obtain ⟨⟨node, position⟩, rest, hwork⟩ := List.exists_cons_of_ne_nil hwork
  have hactive : node ∈ search.active := by simp [Search.active, hwork]
  have hnode := valid.lt_length (valid.mem_stack_of_active hactive)
  have hedges : edges[node]? = some (edges.targets node) := by
    simp [Edges.targets, hnode]
  cases htarget : (edges.targets node)[position]? with
  | none =>
    have hstep : search.step edges = search.leave node rest := by
      simp [step, hwork, hedges, htarget]
    rw [hstep]
    exact exists_advances_leave hrange valid hwork (List.getElem?_eq_none_iff.mp htarget)
  | some target =>
    have hsize : target < search.marks.size := by
      rw [valid.size]
      exact hrange.lt_length (List.mem_of_getElem? htarget)
    cases hmark : search.marks[target]? with
    | none => exact absurd hmark (by simp [hsize])
    | some mark =>
      cases mark with
      | unseen =>
        refine ⟨_, ?_, advances_enter valid hwork htarget hmark⟩
        simp [step, hwork, hedges, htarget, hmark]
      | pending index lowlink =>
        obtain ⟨lowered, hlower, hadvances⟩ :=
          exists_advances_lower valid hwork htarget hmark
        refine ⟨_, ?_, hadvances⟩
        simp [step, hwork, hedges, htarget, hmark, hlower]
      | settled =>
        refine ⟨_, ?_, advances_settled valid hwork htarget hmark⟩
        simp [step, hwork, hedges, htarget, hmark]

end Step

/-! ## Runs -/

structure Finishes (edges : Edges) (search final : Search) : Prop where
  valid : Valid edges final
  work : final.work = []
  unseen : ∀ node : Nat, final.marks[node]? = some .unseen → search.marks[node]? = some .unseen

section Run

variable {edges : Edges} {search : Search}

private theorem potential_pos (h : search.work ≠ []) : 0 < potential edges search := by
  obtain ⟨⟨node, position⟩, rest, hwork⟩ := List.exists_cons_of_ne_nil h
  have hcost : workCost edges rest < workCost edges search.work := workCost_lt hwork
  rw [potential]
  omega

theorem exists_run (hrange : edges.InRange) {fuel : Nat} (valid : Valid edges search)
    (hfuel : potential edges search ≤ fuel) :
    ∃ final, run edges fuel search = some final ∧ Finishes edges search final := by
  induction fuel generalizing search with
  | zero =>
    have hwork : search.work = [] := by
      by_contra hne
      have hpos : 0 < potential edges search := potential_pos hne
      omega
    exact ⟨search, by simp [run, hwork], valid, hwork, fun _ => id⟩
  | succ fuel ih =>
    by_cases hwork : search.work = []
    · exact ⟨search, by simp [run, hwork], valid, hwork, fun _ => id⟩
    · obtain ⟨next, hstep, hnext⟩ := exists_step hrange valid hwork
      have hlt := hnext.potential_lt
      obtain ⟨final, hrun, hfinal⟩ := ih hnext.valid (by omega)
      refine ⟨final, by simp [run, hwork, hstep, hrun], hfinal.valid, hfinal.work, ?_⟩
      exact fun node hnode => hnext.unseen node (hfinal.unseen node hnode)

private theorem exists_visit (hrange : edges.InRange) (valid : Valid edges search)
    (hwork : search.work = []) {node : Nat} (hnode : node < edges.length) :
    ∃ final, visit edges search node = some final ∧ Finishes edges search final ∧
      final.marks[node]? ≠ some .unseen := by
  have hsize : node < search.marks.size := by
    rw [valid.size]
    exact hnode
  by_cases hnew : search.marks[node]? = some .unseen
  · have hfuel : potential edges (search.enter node) ≤ edges.size := by
      rw [potential_enter valid.size hnew, potential, hwork]
      exact unseenCost_le edges search
    have hentered : Valid edges (search.enter node) :=
      valid.enter hnew (by simp [Search.active, hwork])
    obtain ⟨final, hrun, hfinal⟩ := exists_run hrange hentered hfuel
    have hseen : ∀ other : Nat, final.marks[other]? = some .unseen →
        other ≠ node ∧ search.marks[other]? = some .unseen := by
      intro other hother
      have hmark := hfinal.unseen other hother
      rw [marks_enter hsize] at hmark
      split at hmark
      · simp at hmark
      · exact ⟨‹_›, hmark⟩
    refine ⟨final, by simp [visit, hnew, hrun], ⟨hfinal.valid, hfinal.work, ?_⟩, ?_⟩
    · exact fun other hother => (hseen other hother).2
    · exact fun hunseen => (hseen node hunseen).1 rfl
  · refine ⟨search, ?_, ⟨valid, hwork, fun _ => id⟩, hnew⟩
    cases hmark : search.marks[node]? with
    | none => exact absurd hmark (by simp [hsize])
    | some mark =>
      cases mark with
      | unseen => exact absurd hmark hnew
      | pending index lowlink | settled => simp [visit, hmark]

theorem exists_visits (hrange : edges.InRange) (nodes : List Nat)
    (hnodes : ∀ node ∈ nodes, node < edges.length) (valid : Valid edges search)
    (hwork : search.work = []) :
    ∃ final, nodes.foldlM (visit edges) search = some final ∧ Finishes edges search final ∧
      ∀ node ∈ nodes, final.marks[node]? ≠ some .unseen := by
  induction nodes generalizing search with
  | nil => exact ⟨search, rfl, ⟨valid, hwork, fun _ => id⟩, by simp⟩
  | cons node nodes ih =>
    obtain ⟨next, hvisit, hnext, hseen⟩ :=
      exists_visit hrange valid hwork (hnodes node List.mem_cons_self)
    obtain ⟨final, hfold, hfinal, hall⟩ := ih
      (fun other hother => hnodes other (List.mem_cons_of_mem _ hother)) hnext.valid hnext.work
    refine ⟨final, by simp [hvisit, hfold], ⟨hfinal.valid, hfinal.work, ?_⟩, ?_⟩
    · exact fun other hother => hnext.unseen other (hfinal.unseen other hother)
    · intro other hother
      rcases List.mem_cons.mp hother with rfl | hother
      · exact fun hunseen => hseen (hfinal.unseen other hunseen)
      · exact hall other hother

theorem valid_start (edges : Edges) : Valid edges (start edges.length) := by
  have hmarks : ∀ (node : Nat) (mark : Mark),
      (start edges.length).marks[node]? = some mark → mark = .unseen := by
    intro node mark hmark
    rw [start, Array.getElem?_replicate] at hmark
    split at hmark
    · exact (Option.some.inj hmark).symm
    · simp at hmark
  constructor
  case toTied => constructor <;> simp [start]
  case size => simp [start]
  case mem_stack =>
    intro node
    refine ⟨fun hnode => by simp [start] at hnode, ?_⟩
    rintro ⟨index, lowlink, hmark⟩
    exact absurd (hmarks node _ hmark) (by simp)
  case mem_components =>
    intro node
    refine ⟨fun hnode => by simp [start] at hnode, fun hmark => ?_⟩
    exact absurd (hmarks node _ hmark) (by simp)
  case found => exact .nil
  all_goals simp [start]

theorem Valid.stack_eq_nil (valid : Valid edges search) (hwork : search.work = []) :
    search.stack = [] := by
  refine List.eq_nil_iff_forall_not_mem.mpr fun node hnode => ?_
  obtain ⟨below, hbelow, -⟩ := valid.up node hnode
  simp [hwork] at hbelow

end Run

end Search

open Search

theorem exists_found {edges : Edges} (hrange : edges.InRange) :
    ∃ found, components? edges = some found.reverse ∧ Found edges found ∧
      ∀ node, node ∈ found.flatten ↔ node < edges.length := by
  obtain ⟨final, hfold, hfinal, hseen⟩ := exists_visits hrange edges.nodes
    (fun node hnode => List.mem_range.mp hnode) (valid_start edges) rfl
  have valid := hfinal.valid
  refine ⟨final.components, by simp [components?, hfold], valid.found, fun node => ?_⟩
  rw [valid.mem_components]
  constructor
  · intro hmark
    rw [← valid.size]
    exact (Array.getElem?_eq_some_iff.mp hmark).1
  · intro hnode
    have hsize : node < final.marks.size := by
      rw [valid.size]
      exact hnode
    cases hmark : final.marks[node]? with
    | none => exact absurd hmark (by simp [hsize])
    | some mark =>
      cases mark with
      | unseen => exact absurd hmark (hseen node (List.mem_range.mpr hnode))
      | settled => rfl
      | pending index lowlink =>
        have hstack := (valid.mem_stack node).mpr ⟨_, _, hmark⟩
        simp [valid.stack_eq_nil hfinal.work] at hstack

/-- On a graph without nodes out of range the search succeeds. Every node is in one component, once.
Nodes share a component just when each reaches the other. Components are sorted, and a component
that reads another one stands after it. -/
theorem components_strongly_connected (edges : Edges) (hrange : edges.InRange) :
    components? edges = some (components edges) ∧
    (components edges).flatten.Perm edges.nodes ∧
    (∀ left < edges.length, ∀ right < edges.length,
      (∃ component ∈ components edges, left ∈ component ∧ right ∈ component) ↔
        edges.Reaches left right ∧ edges.Reaches right left) ∧
    (∀ component ∈ components edges, component ≠ [] ∧ component.Pairwise (· < ·)) ∧
    ∀ (reader read : Nat) (component other : List Nat),
      (components edges)[reader]? = some component → (components edges)[read]? = some other →
      (∃ source ∈ component, ∃ target ∈ other, edges.Reads source target) → read ≤ reader := by
  obtain ⟨found, hcomponents, hfound, hmem⟩ := exists_found hrange
  have heq : components edges = found.reverse := by rw [components, hcomponents, Option.getD_some]
  rw [heq]
  refine ⟨hcomponents, ?_, ?_, ?_, ?_⟩
  · have hperm : found.reverse.flatten.Perm found.flatten := found.reverse_perm.flatten
    refine hperm.trans ((List.perm_ext_iff_of_nodup hfound.nodup_flatten List.nodup_range).mpr ?_)
    intro node
    rw [hmem, List.mem_range]
  · intro left hleft right hright
    constructor
    · rintro ⟨component, hcomponent, hl, hr⟩
      rw [List.mem_reverse] at hcomponent
      exact ⟨hfound.reaches hcomponent hl hr, hfound.reaches hcomponent hr hl⟩
    · rintro ⟨hthere, hback⟩
      obtain ⟨component, hcomponent, hl⟩ := List.mem_flatten.mp ((hmem left).mpr hleft)
      refine ⟨component, List.mem_reverse.mpr hcomponent, hl, ?_⟩
      exact hfound.mem_of_reaches_both hcomponent hl hthere hback
  · intro component hcomponent
    exact hfound.nonempty_and_sorted (List.mem_reverse.mp hcomponent)
  · rintro reader read component other hreader hread ⟨source, hsource, target, htarget, hreads⟩
    have hpairwise := List.pairwise_reverse.mpr hfound.pairwise_not_reads
    by_contra hlt
    obtain ⟨hreaderlt, hcomponent⟩ := List.getElem?_eq_some_iff.mp hreader
    obtain ⟨hreadlt, hother⟩ := List.getElem?_eq_some_iff.mp hread
    have hnot := List.pairwise_iff_getElem.mp hpairwise reader read hreaderlt hreadlt (by omega)
    rw [hcomponent, hother] at hnot
    exact hnot source hsource target htarget hreads

def loopedGraph : Edges := [[1, 1, 0], [2, 0], [3], [], [3, 4]]

theorem components_strongly_connected_loopedGraph :
    loopedGraph.InRange ∧ components? loopedGraph = some (components loopedGraph) ∧
      (components loopedGraph).flatten.Perm [0, 1, 2, 3, 4] ∧
      ∃ component ∈ components loopedGraph, 0 ∈ component ∧ 1 ∈ component := by
  have hrange : loopedGraph.InRange := by decide
  have hthere : loopedGraph.Reads 0 1 := List.mem_cons_self
  have hback : loopedGraph.Reads 1 0 := List.mem_cons_of_mem 2 List.mem_cons_self
  obtain ⟨hsome, hperm, hsame, -⟩ := components_strongly_connected loopedGraph hrange
  exact ⟨hrange, hsome, hperm,
    (hsame 0 (by decide) 1 (by decide)).mpr ⟨.single hthere, .single hback⟩⟩

end Provision.Graph
