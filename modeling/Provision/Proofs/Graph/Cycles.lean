import Provision.Proofs.Graph.Components
import Provision.Proofs.Graph.Placing

/-!
# Cycles and what they block

The components that hold a cycle hold exactly the nodes on a cycle. Once these are excluded,
placing and searching agree: a node is left without a place just when it reaches a cycle, and then
the walk from it meets one.
-/

namespace Provision.Graph

open Finset (range)

variable {edges : Edges}

def Edges.OnCycle (edges : Edges) (node : Nat) : Prop := Relation.TransGen edges.Reads node node

theorem Edges.Reads.lt_length {node target : Nat} (h : edges.Reads node target) :
    node < edges.length := by
  by_contra hge
  simp [Edges.Reads, Edges.targets, Nat.not_lt.mp hge] at h

theorem Edges.OnCycle.lt_length {node : Nat} (h : edges.OnCycle node) : node < edges.length := by
  obtain ⟨target, hread, -⟩ := Relation.TransGen.head'_iff.mp h
  exact hread.lt_length

theorem Edges.OnCycle.lt_length_of_reaches {node member : Nat} (h : edges.OnCycle member)
    (hreaches : edges.Reaches node member) : node < edges.length := by
  rcases hreaches.cases_head with rfl | ⟨target, hread, -⟩
  · exact h.lt_length
  · exact hread.lt_length

theorem Edges.OnCycle.of_reaches {left right : Nat} (hne : left ≠ right)
    (hthere : edges.Reaches left right) (hback : edges.Reaches right left) :
    edges.OnCycle left := by
  rcases Relation.reflTransGen_iff_eq_or_transGen.mp hthere with heq | hsteps
  · exact absurd heq.symm hne
  · exact hsteps.trans_left hback

theorem mem_cyclesAmong {found : List (List Nat)} {component : List Nat} :
    component ∈ cyclesAmong edges found.reverse ↔
      component ∈ found ∧ isCyclic edges component = true := by
  rw [cyclesAmong, List.mem_mergeSort, List.mem_filter, List.mem_reverse]

def Precedes (left right : List Nat) : Prop := ¬ List.Lex (· < ·) right left

namespace Precedes

variable {first second third : List Nat}

theorem iff_lex : Precedes first second ↔ (!second.lex first) = true := by
  simp [Precedes, List.lex_eq_false_iff_not_lex]

theorem antisymm (h : Precedes first second) (hback : Precedes second first) : first = second :=
  List.lex_trichotomous (fun _ _ hle hge => by omega) h hback

theorem total (first second : List Nat) : Precedes first second ∨ Precedes second first :=
  List.not_lex_total (fun _ _ => by omega) second first

theorem trans (h : Precedes first second) (hnext : Precedes second third) :
    Precedes first third := by
  intro hlex
  by_cases hback : Precedes second first
  · exact hnext (antisymm h hback ▸ hlex)
  · exact hnext (List.lex_trans (fun hxy hyz => by omega) hlex (not_not.mp hback))

end Precedes

theorem pairwise_cyclesAmong (edges : Edges) (components : List (List Nat)) :
    (cyclesAmong edges components).Pairwise Precedes := by
  refine (List.pairwise_mergeSort ?_ ?_ _).imp Precedes.iff_lex.mpr
  · intro first second third h hnext
    exact Precedes.iff_lex.mp ((Precedes.iff_lex.mpr h).trans (Precedes.iff_lex.mpr hnext))
  · intro first second
    rw [Bool.or_eq_true, ← Precedes.iff_lex, ← Precedes.iff_lex]
    exact Precedes.total first second

section Cyclic

variable {edges : Edges} {found : List (List Nat)} (hfound : Found edges found)

include hfound

theorem Found.isCyclic_iff {component : List Nat} (hcomponent : component ∈ found) {node : Nat}
    (hnode : node ∈ component) : isCyclic edges component = true ↔ edges.OnCycle node := by
  match component, hcomponent, hnode with
  | [single], hcomponent, hnode =>
    obtain rfl := List.mem_singleton.mp hnode
    simp only [isCyclic, List.contains_iff_mem]
    constructor
    · exact fun hread => .single hread
    · intro hcycle
      obtain ⟨target, hread, hback⟩ := Relation.TransGen.head'_iff.mp hcycle
      have hmem := hfound.mem_of_reaches_both hcomponent hnode (.single hread) hback
      obtain rfl := List.mem_singleton.mp hmem
      exact hread
  | first :: second :: rest, hcomponent, hnode =>
    refine iff_of_true rfl ?_
    have hlt : first < second :=
      (List.pairwise_cons.mp (hfound.nonempty_and_sorted hcomponent).2).1 second (by simp)
    obtain ⟨other, hother, hne⟩ : ∃ other ∈ first :: second :: rest, node ≠ other := by
      by_cases heq : node = first
      · exact ⟨second, by simp, by omega⟩
      · exact ⟨first, by simp, heq⟩
    exact .of_reaches hne (hfound.reaches hcomponent hnode hother)
      (hfound.reaches hcomponent hother hnode)

theorem mem_flatten_cyclesAmong (hall : ∀ node, node ∈ found.flatten ↔ node < edges.length)
    {node : Nat} : node ∈ (cyclesAmong edges found.reverse).flatten ↔ edges.OnCycle node := by
  rw [List.mem_flatten]
  constructor
  · rintro ⟨component, hcomponent, hnode⟩
    obtain ⟨hmem, hcyclic⟩ := mem_cyclesAmong.mp hcomponent
    exact (hfound.isCyclic_iff hmem hnode).mp hcyclic
  · intro hcycle
    obtain ⟨component, hmem, hnode⟩ := List.mem_flatten.mp ((hall node).mpr hcycle.lt_length)
    have hcyclic := (hfound.isCyclic_iff hmem hnode).mpr hcycle
    exact ⟨component, mem_cyclesAmong.mpr ⟨hmem, hcyclic⟩, hnode⟩

theorem nodup_flatten_cyclesAmong : (cyclesAmong edges found.reverse).flatten.Nodup := by
  have hsorted : (cyclesAmong edges found.reverse).flatten.Perm
      (found.reverse.filter (isCyclic edges)).flatten := (List.mergeSort_perm _ _).flatten
  have hreverse : found.reverse.flatten.Nodup :=
    found.reverse_perm.flatten.nodup_iff.mpr hfound.nodup_flatten
  exact hsorted.nodup_iff.mpr (hreverse.sublist List.filter_sublist.flatten)

theorem Found.mem_placed (hrange : edges.InRange) {excluded placed : List Nat}
    (hexcluded : ∀ node, node ∈ excluded ↔ edges.OnCycle node)
    (hdone : ∀ node, ¬ Ready edges excluded placed node) {node : Nat}
    (hnode : node ∈ found.flatten) (hlt : node < edges.length)
    (hfree : ∀ member, edges.Reaches node member → ¬ edges.OnCycle member) : node ∈ placed := by
  induction hfound generalizing node with
  | nil => simp at hnode
  | cons _ _ hreaches hreads _ _ ih =>
    rw [List.flatten_cons, List.mem_append] at hnode
    rcases hnode with hnode | hnode
    · by_contra hplaced
      refine hdone node ⟨hlt, ?_, hplaced, fun target htarget => ?_⟩
      · rw [hexcluded]
        exact hfree node .refl
      · have hread : edges.Reads node target := htarget
        have hfreeTarget : ∀ member, edges.Reaches target member → ¬ edges.OnCycle member :=
          fun member hmember => hfree member (.head hread hmember)
        rcases hreads node hnode target htarget with hsame | holder
        · have hcycle : edges.OnCycle node :=
            Relation.TransGen.head'_iff.mpr ⟨target, hread, hreaches target hsame node hnode⟩
          exact absurd hcycle (hfree node .refl)
        · exact ih holder (hrange.lt_length hread) hfreeTarget
    · exact ih hnode hlt hfree

end Cyclic

section Walk

variable {edges : Edges} {excluded : List Nat}

theorem findExcluded_sound {fuel : Nat} {seen pending : List Nat} {member : Nat}
    (h : findExcluded edges excluded fuel seen pending = some member) :
    member ∈ excluded ∧ ∃ node ∈ pending, edges.Reaches node member := by
  induction fuel generalizing seen pending with
  | zero => simp [findExcluded] at h
  | succ fuel ih =>
    cases pending with
    | nil => simp [findExcluded] at h
    | cons current pending =>
      rw [findExcluded] at h
      split at h
      · obtain ⟨hmember, node, hnode, hreaches⟩ := ih h
        exact ⟨hmember, node, List.mem_cons_of_mem _ hnode, hreaches⟩
      · split at h
        case h_1 found hfind =>
          obtain rfl := Option.some.inj h
          have hread : edges.Reads current found := List.mem_of_find?_eq_some hfind
          have hexcluded := List.find?_some hfind
          exact ⟨List.contains_iff_mem.mp hexcluded, current, List.mem_cons_self, .single hread⟩
        case h_2 =>
          obtain ⟨hmember, node, hnode, hreaches⟩ := ih h
          rcases List.mem_append.mp hnode with htarget | hpending
          · exact ⟨hmember, current, List.mem_cons_self, .head htarget hreaches⟩
          · exact ⟨hmember, node, List.mem_cons_of_mem _ hpending, hreaches⟩

def unseenTargets (edges : Edges) (seen : List Nat) : Nat :=
  ∑ node ∈ range edges.length with node ∉ seen, (edges.targets node).length

private theorem unseenTargets_cons {seen : List Nat} {current : Nat} (hnew : current ∉ seen) :
    unseenTargets edges (current :: seen) + (edges.targets current).length =
      unseenTargets edges seen := by
  have herase : {node ∈ range edges.length | node ∉ current :: seen} =
      {node ∈ range edges.length | node ∉ seen}.erase current := by
    ext node
    simp only [Finset.mem_filter, Finset.mem_erase, List.mem_cons, not_or]
    tauto
  rw [unseenTargets, unseenTargets, herase]
  by_cases hlt : current < edges.length
  · exact Finset.sum_erase_add _ _ (by simp [hlt, hnew])
  · rw [Finset.erase_eq_of_notMem (by simp [hlt])]
    simp [Edges.targets, Nat.not_lt.mp hlt]

theorem unseenTargets_nil (edges : Edges) : unseenTargets edges [] + edges.length = edges.size := by
  have hcost : ∑ node ∈ range edges.length, ((edges.targets node).length + 1) = edges.size :=
    Search.sum_cost edges
  rw [Finset.sum_add_distrib] at hcost
  simpa [unseenTargets] using hcost

private theorem exists_closed_of_findExcluded_eq_none {fuel : Nat} {seen pending : List Nat}
    (hfuel : unseenTargets edges seen + pending.length ≤ fuel)
    (hseen : ∀ node ∈ seen, ∀ target ∈ edges.targets node,
      target ∉ excluded ∧ (target ∈ seen ∨ target ∈ pending))
    (h : findExcluded edges excluded fuel seen pending = none) :
    ∃ closed : List Nat, (∀ node ∈ pending, node ∈ closed) ∧ (∀ node ∈ seen, node ∈ closed) ∧
      ∀ node ∈ closed, ∀ target ∈ edges.targets node, target ∉ excluded ∧ target ∈ closed := by
  induction fuel generalizing seen pending with
  | zero =>
    obtain rfl : pending = [] := List.length_eq_zero_iff.mp (by omega)
    exact ⟨seen, by simp, fun _ => id, by simpa using hseen⟩
  | succ fuel ih =>
    cases pending with
    | nil => exact ⟨seen, by simp, fun _ => id, by simpa using hseen⟩
    | cons current pending =>
      rw [List.length_cons] at hfuel
      rw [findExcluded] at h
      split at h
      case isTrue hcurrent =>
        rw [List.contains_iff_mem] at hcurrent
        have hnext : ∀ node ∈ seen, ∀ target ∈ edges.targets node,
            target ∉ excluded ∧ (target ∈ seen ∨ target ∈ pending) := by
          grind
        obtain ⟨closed, hpending, hsub, hclosed⟩ := ih (by omega) hnext h
        exact ⟨closed, by grind, hsub, hclosed⟩
      case isFalse hcurrent =>
        rw [List.contains_iff_mem] at hcurrent
        have hcount : unseenTargets edges (current :: seen) + (edges.targets current).length =
            unseenTargets edges seen := unseenTargets_cons hcurrent
        split at h
        case h_1 => simp at h
        case h_2 hfind =>
          have hnone : ∀ target ∈ edges.targets current, target ∉ excluded := by
            simpa using hfind
          have hnext : ∀ node ∈ current :: seen, ∀ target ∈ edges.targets node,
              target ∉ excluded ∧
                (target ∈ current :: seen ∨ target ∈ edges.targets current ++ pending) := by
            grind
          obtain ⟨closed, hpending, hsub, hclosed⟩ :=
            ih (by rw [List.length_append]; omega) hnext h
          exact ⟨closed, by grind, by grind, hclosed⟩

private theorem exists_blockingMember {node member : Nat} (hnode : node < edges.length)
    (hfree : node ∉ excluded) (hmember : member ∈ excluded) (hreaches : edges.Reaches node member) :
    ∃ found, blockingMember edges excluded node = some found := by
  rw [← Option.isSome_iff_exists, ← Option.ne_none_iff_isSome]
  intro hnone
  have hfuel : unseenTargets edges [] + [node].length ≤ edges.size := by
    rw [← unseenTargets_nil, List.length_singleton]
    omega
  obtain ⟨closed, hpending, -, hclosed⟩ :=
    exists_closed_of_findExcluded_eq_none hfuel (by simp) hnone
  have hreached : ∀ target, edges.Reaches node target → target ∉ excluded ∧ target ∈ closed := by
    intro target htarget
    induction htarget with
    | refl => exact ⟨hfree, hpending node List.mem_cons_self⟩
    | tail _ hread ih => exact hclosed _ ih.2 _ hread
  exact (hreached member hreaches).1 hmember

variable {placed : List Nat}

theorem blockedNodes_sound {entry : Nat × Nat} (h : entry ∈ blockedNodes edges excluded placed) :
    entry.2 ∈ excluded ∧ edges.Reaches entry.1 entry.2 := by
  obtain ⟨node, -, hentry⟩ := List.mem_filterMap.mp h
  split at hentry
  · simp at hentry
  · obtain ⟨member, hmember, rfl⟩ := Option.map_eq_some_iff.mp hentry
    obtain ⟨hexcluded, start, hstart, hreaches⟩ := findExcluded_sound hmember
    obtain rfl := List.mem_singleton.mp hstart
    exact ⟨hexcluded, hreaches⟩

theorem map_fst_blockedNodes
    (hreaches : ∀ node < edges.length, node ∉ placed →
      ∃ member ∈ excluded, edges.Reaches node member) :
    (blockedNodes edges excluded placed).map Prod.fst =
      edges.nodes.filter fun node => node ∉ placed ∧ node ∉ excluded := by
  rw [blockedNodes, List.map_filterMap, ← List.filterMap_eq_filter]
  refine List.filterMap_congr fun node hnode => ?_
  by_cases hleft : node ∈ placed ∨ node ∈ excluded
  · simp [hleft, Option.guard]
    tauto
  · rw [not_or] at hleft
    obtain ⟨member, hmember, hpath⟩ := hreaches node (List.mem_range.mp hnode) hleft.1
    obtain ⟨found, hfound⟩ :=
      exists_blockingMember (List.mem_range.mp hnode) hleft.2 hmember hpath
    simp [hleft, hfound, Option.guard]

end Walk

end Provision.Graph
