import Provision.Proofs.Graph.Cycles

/-!
# What an ordering holds

`Ordered` gathers what is known of the ordering of a graph: which nodes are on cycles, which are
blocked and which have a place, and that each place went to the least node that was ready. From
this follow the order of declarations, where outputs are moved behind everything else, and the
exact condition under which outputs change places among themselves.
-/

namespace Provision.Graph

/-! ## Edges between declarations -/

variable {node : Nat}

@[simp] theorem mem_dropRepeats {nodes : List Nat} : node ∈ dropRepeats nodes ↔ node ∈ nodes := by
  induction nodes with
  | nil => simp [dropRepeats]
  | cons first rest ih =>
    cases rest with
    | nil => simp [dropRepeats]
    | cons second rest =>
      rw [dropRepeats]
      split
      case isTrue heq => simp [ih, heq]
      case isFalse => simp only [List.mem_cons, ih]

@[simp] theorem length_dependencyEdges (nodes : List Bound.Node) :
    (dependencyEdges nodes).length = nodes.length := by
  simp [dependencyEdges]

variable {target : Nat}

theorem reads_dependencyEdges_iff {nodes : List Bound.Node} {source : Nat} :
    (dependencyEdges nodes).Reads source target ↔ ∃ node, nodes[source]? = some node ∧
      ∃ name ∈ node.dependencies, declarationOf nodes name = some target := by
  simp only [Edges.Reads, Edges.targets, dependencyEdges, List.getD_eq_getElem?_getD,
    List.getElem?_map]
  cases nodes[source]? with
  | none => simp
  | some node => simp

theorem declared_of_reads {nodes : List Bound.Node} {source : Nat}
    (h : (dependencyEdges nodes).Reads source target) :
    target < nodes.length ∧ isOutputAt nodes target = false := by
  obtain ⟨node, -, name, -, hname⟩ := reads_dependencyEdges_iff.mp h
  obtain ⟨hlt, hfound, -⟩ := List.findIdx?_eq_some_iff_getElem.mp hname
  simp only [Bool.and_eq_true, Bool.not_eq_true'] at hfound
  exact ⟨hlt, by simp [isOutputAt, hlt, hfound.1]⟩

theorem inRange_dependencyEdges (nodes : List Bound.Node) : (dependencyEdges nodes).InRange := by
  intro targets htargets target htarget
  obtain ⟨source, hsource⟩ := List.mem_iff_getElem?.mp htargets
  have hread : (dependencyEdges nodes).Reads source target := by
    simpa [Edges.Reads, Edges.targets, hsource] using htarget
  simpa using (declared_of_reads hread).1

/-! ## Orderings of a graph -/

private theorem ready_reverse {edges : Edges} {excluded placed : List Nat} :
    Ready edges excluded placed.reverse node ↔ Ready edges excluded placed node := by
  constructor <;> intro h <;>
    exact ⟨h.lt_length, h.not_excluded, by simpa using h.not_placed, by simpa using h.reads⟩

structure Ordered (edges : Edges) (isOutput : Nat → Bool) (placed : List Nat)
    (ordering : Ordering) : Prop where
  order : ordering.order = placed.filter (!isOutput ·) ++ placed.filter isOutput
  nodup : placed.Nodup
  isLeast : ∀ before node after, placed = before ++ node :: after →
    IsLeast {other | Ready edges ordering.cycles.flatten before other} node
  mem_placed : ∀ node, node ∈ placed ↔
    node < edges.length ∧ ∀ member, edges.Reaches node member → ¬ edges.OnCycle member
  mem_cycles : ∀ node, node ∈ ordering.cycles.flatten ↔ edges.OnCycle node
  nodup_cycles : ordering.cycles.flatten.Nodup
  component : ∀ cycle ∈ ordering.cycles, cycle ≠ [] ∧ ∀ left ∈ cycle, ∀ right,
    right ∈ cycle ↔ edges.Reaches left right ∧ edges.Reaches right left
  increasing : ∀ cycle ∈ ordering.cycles, cycle.Pairwise (· < ·)
  sorted : ordering.cycles.Pairwise Precedes
  blocked : ordering.blocked.map Prod.fst =
    edges.nodes.filter fun node => node ∉ placed ∧ node ∉ ordering.cycles.flatten
  blocking : ∀ entry ∈ ordering.blocked, edges.OnCycle entry.2 ∧ edges.Reaches entry.1 entry.2

theorem orderEdges?_eq {edges : Edges} (isOutput : Nat → Bool) {components : List (List Nat)}
    {placed : List Nat} (hcomponents : components? edges = some components)
    (hplaced : schedule? edges (cyclesAmong edges components).flatten = some placed) :
    orderEdges? edges isOutput = some
      ⟨placed.filter (!isOutput ·) ++ placed.filter isOutput, cyclesAmong edges components,
        blockedNodes edges (cyclesAmong edges components).flatten placed⟩ := by
  simp only [orderEdges?, hcomponents, Option.bind_eq_bind, Option.bind_some, hplaced]
  rfl

theorem exists_ordered {edges : Edges} (hrange : edges.InRange) (isOutput : Nat → Bool) :
    ∃ ordering placed, orderEdges? edges isOutput = some ordering ∧
      Ordered edges isOutput placed ordering := by
  obtain ⟨found, hcomponents, hfound, hall⟩ := exists_found hrange
  let cycles := cyclesAmong edges found.reverse
  have hcycles : ∀ node, node ∈ cycles.flatten ↔ edges.OnCycle node :=
    fun node => mem_flatten_cyclesAmong hfound hall
  obtain ⟨placed, hschedule, hplaced, hdone⟩ := exists_placed edges cycles.flatten
  have hmem : ∀ node, node ∈ placed.reverse ↔
      node < edges.length ∧ ∀ member, edges.Reaches node member → ¬ edges.OnCycle member := by
    intro node
    rw [List.mem_reverse]
    constructor
    · intro hnode
      refine ⟨hplaced.lt_length hnode, fun member hreaches => ?_⟩
      rw [← hcycles]
      exact hplaced.not_excluded (hplaced.mem_of_reaches hnode hreaches)
    · rintro ⟨hlt, hfree⟩
      exact hfound.mem_placed hrange hcycles hdone ((hall node).mpr hlt) hlt hfree
  have hblocked : ∀ node < edges.length, node ∉ placed.reverse →
      ∃ member ∈ cycles.flatten, edges.Reaches node member := by
    intro node hlt hnode
    by_contra hnone
    refine hnode ((hmem node).mpr ⟨hlt, fun member hreaches hcycle => hnone ?_⟩)
    exact ⟨member, (hcycles member).mpr hcycle, hreaches⟩
  refine ⟨_, placed.reverse, orderEdges?_eq isOutput hcomponents hschedule, ?_⟩
  constructor
  case order => rfl
  case nodup => exact List.nodup_reverse.mpr hplaced.nodup
  case isLeast =>
    intro before node after hsplit
    have heq : placed = after.reverse ++ node :: before.reverse := by
      simpa using congrArg List.reverse hsplit
    simpa only [ready_reverse] using hplaced.isLeast_of_append heq
  case mem_placed => exact hmem
  case mem_cycles => exact hcycles
  case nodup_cycles => exact nodup_flatten_cyclesAmong hfound
  case component =>
    intro cycle hcycle
    obtain ⟨hmem, -⟩ := mem_cyclesAmong.mp hcycle
    refine ⟨(hfound.nonempty_and_sorted hmem).1, fun left hleft right => ?_⟩
    constructor
    · exact fun hright => ⟨hfound.reaches hmem hleft hright, hfound.reaches hmem hright hleft⟩
    · rintro ⟨hthere, hback⟩
      exact hfound.mem_of_reaches_both hmem hleft hthere hback
  case increasing =>
    exact fun cycle hcycle => (hfound.nonempty_and_sorted (mem_cyclesAmong.mp hcycle).1).2
  case sorted => exact pairwise_cyclesAmong edges found.reverse
  case blocked => exact map_fst_blockedNodes hblocked
  case blocking =>
    intro entry hentry
    obtain ⟨hmember, hreaches⟩ := blockedNodes_sound hentry
    exact ⟨(hcycles _).mp hmember, hreaches⟩

/-! ## Where nodes stand -/

variable {before after : List Nat}

theorem exists_split_of_filter {p : Nat → Bool} {items : List Nat}
    (h : items.filter p = before ++ node :: after) :
    ∃ left right, items = left ++ node :: right ∧ left.filter p = before ∧
      right.filter p = after := by
  obtain ⟨first, second, rfl, rfl, hsecond⟩ := List.filter_eq_append_iff.mp h
  obtain ⟨skipped, right, rfl, hskipped, -, rfl⟩ := List.filter_eq_cons_iff.mp hsecond
  have hnone : skipped.filter p = [] := List.filter_eq_nil_iff.mpr hskipped
  exact ⟨first ++ skipped, right, by simp, by simp [hnone], rfl⟩

structure Available (edges : Edges) (isOutput : Nat → Bool) (before : List Nat) (node : Nat) :
    Prop where
  lt_length : node < edges.length
  plain : isOutput node = false
  not_onCycle : ¬ edges.OnCycle node
  new : node ∉ before
  reads : ∀ target ∈ edges.targets node, target ∈ before

/-- Where something declared after the later output is written, all that the later output reads
has been written and something that the earlier one reads has not. -/
def Overtakes (edges : Edges) (plain : List Nat) (later earlier : Nat) : Prop :=
  ∃ before stalling rest, plain = before ++ stalling :: rest ∧ later < stalling ∧
    (∀ target ∈ edges.targets later, target ∈ before) ∧
    ∃ target ∈ edges.targets earlier, target ∉ before

namespace Ordered

variable {edges : Edges} {isOutput : Nat → Bool} {placed : List Nat} {ordering : Ordering}
  (h : Ordered edges isOutput placed ordering)

include h

theorem mem_order : node ∈ ordering.order ↔ node ∈ placed := by
  cases houtput : isOutput node <;> simp [h.order, houtput]

theorem nodup_order : ordering.order.Nodup := by
  rw [h.order, List.nodup_append]
  refine ⟨h.nodup.filter _, h.nodup.filter _, ?_⟩
  rintro node hnode other hother rfl
  simp_all

theorem filter_plain : ordering.order.filter (!isOutput ·) = placed.filter (!isOutput ·) := by
  simp [h.order, List.filter_filter]

theorem filter_output : ordering.order.filter isOutput = placed.filter isOutput := by
  simp [h.order, List.filter_filter]

theorem mem_blocked : node ∈ ordering.blocked.map Prod.fst ↔
    ¬ edges.OnCycle node ∧ ∃ member, edges.OnCycle member ∧ edges.Reaches node member := by
  rw [h.blocked]
  simp only [List.mem_filter, Edges.nodes, List.mem_range, decide_eq_true_eq, h.mem_placed,
    h.mem_cycles]
  constructor
  · rintro ⟨hlt, hblocked, hcycle⟩
    refine ⟨hcycle, ?_⟩
    by_contra hnone
    exact hblocked ⟨hlt, fun member hreaches hmember => hnone ⟨member, hmember, hreaches⟩⟩
  · rintro ⟨hcycle, member, hmember, hreaches⟩
    exact ⟨hmember.lt_length_of_reaches hreaches,
      fun hfree => hfree.2 member hreaches hmember, hcycle⟩

private theorem nodup_cycles_blocked_order :
    (ordering.cycles.flatten ++ ordering.blocked.map Prod.fst ++ ordering.order).Nodup := by
  have hblocked : (ordering.blocked.map Prod.fst).Nodup := by
    rw [h.blocked]
    exact List.nodup_range.filter _
  rw [List.nodup_append, List.nodup_append]
  refine ⟨⟨h.nodup_cycles, hblocked, ?_⟩, h.nodup_order, ?_⟩
  · rintro node hcycle _ hother rfl
    exact (h.mem_blocked.mp hother).1 ((h.mem_cycles node).mp hcycle)
  · rintro node hnode _ horder rfl
    have hfree := ((h.mem_placed node).mp (h.mem_order.mp horder)).2
    rcases List.mem_append.mp hnode with hcycle | hblocked
    · exact hfree node .refl ((h.mem_cycles node).mp hcycle)
    · obtain ⟨-, member, hmember, hreaches⟩ := h.mem_blocked.mp hblocked
      exact hfree member hreaches hmember

theorem perm_nodes :
    (ordering.cycles.flatten ++ ordering.blocked.map Prod.fst ++ ordering.order).Perm
      edges.nodes := by
  refine (List.perm_ext_iff_of_nodup h.nodup_cycles_blocked_order List.nodup_range).mpr
    fun node => ?_
  simp only [List.mem_append, h.mem_cycles, h.mem_blocked, h.mem_order, h.mem_placed,
    List.mem_range]
  constructor
  · rintro ((hcycle | ⟨hcycle, member, hmember, hreaches⟩) | hfree)
    · exact hcycle.lt_length
    · exact hmember.lt_length_of_reaches hreaches
    · exact hfree.1
  · intro hlt
    by_cases hcycle : edges.OnCycle node
    · exact .inl (.inl hcycle)
    · by_cases hreaches : ∃ member, edges.OnCycle member ∧ edges.Reaches node member
      · exact .inl (.inr ⟨hcycle, hreaches⟩)
      · exact .inr ⟨hlt, fun member hpath hmember => hreaches ⟨member, hmember, hpath⟩⟩

theorem outputs_last : ordering.order.Pairwise fun left right =>
    isOutput left = true → isOutput right = true := by
  rw [h.order, List.pairwise_append]
  refine ⟨?_, ?_, ?_⟩
  · exact List.pairwise_of_forall_mem_list fun left hleft right _ => by simp_all
  · exact List.pairwise_of_forall_mem_list fun left _ right hright => by simp_all
  · intro left hleft
    simp_all

theorem mem_left_of_reads {left right : List Nat} (hsplit : placed = left ++ right)
    (hnode : node ∈ left) (hread : edges.Reads node target) : target ∈ left := by
  obtain ⟨before, after, rfl⟩ := List.append_of_mem hnode
  have hplaced : placed = before ++ node :: (after ++ right) := by simp [hsplit]
  have hbefore := (h.isLeast before node _ hplaced).1.reads target hread
  simp [hbefore]

theorem mem_placed_of_reads (hnode : node ∈ placed) (hread : edges.Reads node target) :
    target ∈ placed :=
  h.mem_left_of_reads (List.append_nil placed).symm hnode hread

theorem le_of_reads {other : Nat} (hsplit : placed = before ++ node :: after)
    (hother : other ∈ node :: after) (hreads : ∀ target ∈ edges.targets other, target ∈ before) :
    node ≤ other := by
  have hnew : other ∉ before := by
    intro hbefore
    have hdisjoint := h.nodup
    rw [hsplit, List.nodup_append] at hdisjoint
    exact hdisjoint.2.2 other hbefore other hother rfl
  obtain ⟨hlt, hfree⟩ := (h.mem_placed other).mp (by simp_all)
  refine (h.isLeast before node after hsplit).2 ⟨hlt, ?_, hnew, hreads⟩
  rw [h.mem_cycles]
  exact hfree other .refl

section Plain

variable (hplain : ∀ source target, edges.Reads source target → isOutput target = false)

include hplain

theorem isLeast_available (hsplit : ordering.order = before ++ node :: after)
    (hnode : isOutput node = false) :
    IsLeast {other | Available edges isOutput before other} node := by
  have hfilter : placed.filter (!isOutput ·) =
      before.filter (!isOutput ·) ++ node :: after.filter (!isOutput ·) := by
    rw [← h.filter_plain, hsplit]
    simp [hnode]
  obtain ⟨left, right, hplaced, hbefore, -⟩ := exists_split_of_filter hfilter
  -- Of the nodes placed before this one, those that are no outputs are the ones written before it.
  have hmem : ∀ other, isOutput other = false → (other ∈ left ↔ other ∈ before) := by
    intro other hother
    have hiff : other ∈ left.filter (!isOutput ·) ↔ other ∈ before.filter (!isOutput ·) := by
      rw [hbefore]
    simpa [hother] using hiff
  have havailable : ∀ other, isOutput other = false →
      (Available edges isOutput before other ↔ Ready edges ordering.cycles.flatten left other) := by
    intro other hother
    have hreads : (∀ target ∈ edges.targets other, target ∈ before) ↔
        ∀ target ∈ edges.targets other, target ∈ left :=
      forall₂_congr fun target htarget => (hmem target (hplain other target htarget)).symm
    constructor
    · intro ⟨hlt, _, hcycle, hnew, htargets⟩
      exact ⟨hlt, by rwa [h.mem_cycles], by rwa [hmem other hother], hreads.mp htargets⟩
    · intro ⟨hlt, hcycle, hnew, htargets⟩
      exact ⟨hlt, hother, by rwa [← h.mem_cycles], by rwa [← hmem other hother],
        hreads.mpr htargets⟩
  obtain ⟨hready, hleast⟩ := h.isLeast left node right hplaced
  refine ⟨(havailable node hnode).mpr hready, fun other hother => hleast ?_⟩
  exact (havailable other hother.plain).mp hother

theorem reads_before (hsplit : ordering.order = before ++ node :: after) :
    ∀ target ∈ edges.targets node, target ∈ before := by
  intro target htarget
  have htargetPlain := hplain node target htarget
  cases hnode : isOutput node with
  | false => exact (h.isLeast_available hplain hsplit hnode).1.reads target htarget
  | true =>
    have hmem : node ∈ placed := h.mem_order.mp (by simp [hsplit])
    have horder : target ∈ before ++ node :: after := by
      rw [← hsplit]
      exact h.mem_order.mpr (h.mem_placed_of_reads hmem htarget)
    have hlast := h.outputs_last
    rw [hsplit, List.pairwise_append, List.pairwise_cons] at hlast
    rcases List.mem_append.mp horder with hbefore | hafter
    · exact hbefore
    · rcases List.mem_cons.mp hafter with rfl | hafter
      · simp [hnode] at htargetPlain
      · simp [hlast.2.1.1 target hafter hnode] at htargetPlain

private theorem exists_stalling {output : Nat} (hsplit : placed = before ++ output :: after)
    (houtput : isOutput output = true) (htarget : target ∈ after)
    (htargetPlain : isOutput target = false) :
    ∃ stalling rest, placed.filter (!isOutput ·) =
      before.filter (!isOutput ·) ++ stalling :: rest ∧ output < stalling := by
  obtain ⟨stalling, rest, hfilter⟩ : ∃ stalling rest,
      after.filter (!isOutput ·) = stalling :: rest := by
    refine List.exists_cons_of_ne_nil fun hnil => ?_
    exact List.filter_eq_nil_iff.mp hnil target htarget (by simp [htargetPlain])
  obtain ⟨outputs, right, hafter, houtputs, hstalling, -⟩ := List.filter_eq_cons_iff.mp hfilter
  refine ⟨stalling, rest, by simp [hsplit, houtput, hfilter], ?_⟩
  have hplaced : placed = (before ++ output :: outputs) ++ stalling :: right := by
    simp [hsplit, hafter]
  have hreads : ∀ target ∈ edges.targets stalling, target ∈ before := by
    intro target htarget
    have hmem := (h.isLeast _ _ _ hplaced).1.reads target htarget
    have hfree := hplain stalling target htarget
    rcases List.mem_append.mp hmem with hbefore | hrest
    · exact hbefore
    · rcases List.mem_cons.mp hrest with rfl | hrest
      · simp [houtput] at hfree
      · exact absurd (by simp [hfree]) (houtputs target hrest)
  have hle := h.le_of_reads hsplit (by simp [hafter]) hreads
  have hne : output ≠ stalling := by
    rintro rfl
    simp [houtput] at hstalling
  omega

private theorem overtakes_of_sublist {earlier later : Nat} (hearlier : earlier ∈ placed)
    (houtput : isOutput later = true) (hlt : earlier < later)
    (hsublist : [later, earlier].Sublist placed) :
    Overtakes edges (placed.filter (!isOutput ·)) later earlier := by
  obtain ⟨first, second, hplaced, hfirst, hsecond⟩ := List.cons_sublist_iff.mp hsublist
  obtain ⟨before, between, rfl⟩ := List.append_of_mem hfirst
  have hsplit : placed = before ++ later :: (between ++ second) := by simp [hplaced]
  have hmem : earlier ∈ later :: (between ++ second) := by
    simp [List.singleton_sublist.mp hsecond]
  obtain ⟨target, htarget, hmissing⟩ : ∃ target ∈ edges.targets earlier, target ∉ before := by
    by_contra hnone
    have hle := h.le_of_reads hsplit hmem (by simpa using hnone)
    omega
  have hread : edges.Reads earlier target := htarget
  have hafter : target ∈ between ++ second := by
    have hall := h.mem_placed_of_reads hearlier hread
    have hne : target ≠ later := by
      rintro rfl
      simp [hplain earlier target hread] at houtput
    rw [hsplit] at hall
    simpa [hmissing, hne] using hall
  obtain ⟨stalling, rest, hfilter, hstalling⟩ :=
    h.exists_stalling hplain hsplit houtput hafter (hplain earlier target hread)
  refine ⟨_, stalling, rest, hfilter, hstalling, fun read hreads => ?_, target, htarget, ?_⟩
  · have hbefore := (h.isLeast _ _ _ hsplit).1.reads read hreads
    simp [hbefore, hplain later read hreads]
  · simp [hmissing]

private theorem sublist_of_overtakes {earlier later : Nat} (hearlier : earlier ∈ placed)
    (hlater : later ∈ placed)
    (hovertakes : Overtakes edges (placed.filter (!isOutput ·)) later earlier) :
    [later, earlier].Sublist placed := by
  obtain ⟨before, stalling, rest, hsplit, hstalling, htargets, target, htarget, hmissing⟩ :=
    hovertakes
  obtain ⟨left, right, hplaced, hbefore, -⟩ := exists_split_of_filter hsplit
  have hfirst : later ∈ left := by
    by_contra hnew
    have hright : later ∈ stalling :: right := by
      rw [hplaced] at hlater
      exact (List.mem_append.mp hlater).resolve_left hnew
    have hle := h.le_of_reads hplaced hright fun target ht => by
      have hmem := htargets target ht
      rw [← hbefore] at hmem
      exact List.mem_of_mem_filter hmem
    omega
  have hsecond : earlier ∈ stalling :: right := by
    rw [hplaced] at hearlier
    refine (List.mem_append.mp hearlier).resolve_left fun hleft => hmissing ?_
    have hread : edges.Reads earlier target := htarget
    rw [← hbefore]
    simp [h.mem_left_of_reads hplaced hleft hread, hplain earlier target hread]
  rw [hplaced]
  exact (List.singleton_sublist.mpr hfirst).append (List.singleton_sublist.mpr hsecond)

theorem pairwise_outputs_iff : (placed.filter isOutput).Pairwise (· < ·) ↔
    ∀ earlier ∈ placed.filter isOutput, ∀ later ∈ placed.filter isOutput, earlier < later →
      ¬ Overtakes edges (placed.filter (!isOutput ·)) later earlier := by
  simp only [List.mem_filter]
  constructor
  · intro hpairwise earlier hearlier later hlater hlt hovertakes
    have hsublist := h.sublist_of_overtakes hplain hearlier.1 hlater.1 hovertakes
    have houtputs : [later, earlier].Sublist (placed.filter isOutput) := by
      simpa [hearlier.2, hlater.2] using hsublist.filter isOutput
    have hgt := List.pairwise_iff_forall_sublist.mp hpairwise houtputs
    omega
  · intro hnone
    refine List.pairwise_iff_forall_sublist.mpr fun {left right} hsublist => ?_
    have hleft := List.mem_filter.mp (hsublist.subset List.mem_cons_self)
    have hright := List.mem_filter.mp (hsublist.subset (List.mem_cons_of_mem _ List.mem_cons_self))
    have hne : left ≠ right := by
      simpa using (h.nodup.filter isOutput).sublist hsublist
    by_contra hge
    have hlt : right < left := by omega
    refine hnone right hright left hleft hlt ?_
    exact h.overtakes_of_sublist hplain hright.1 hleft.2 hlt
      (hsublist.trans List.filter_sublist)

end Plain

end Ordered

/-! ## Programs -/

theorem exists_order (nodes : List Bound.Node) :
    order? nodes = some (order nodes) ∧
      ∃ placed, Ordered (dependencyEdges nodes) (isOutputAt nodes) placed (order nodes) := by
  obtain ⟨ordering, placed, hordering, h⟩ :=
    exists_ordered (inRange_dependencyEdges nodes) (isOutputAt nodes)
  have horder : order? nodes = some ordering := hordering
  rw [order, horder]
  exact ⟨rfl, placed, h⟩

theorem plain_of_reads {nodes : List Bound.Node} (source target : Nat)
    (h : (dependencyEdges nodes).Reads source target) : isOutputAt nodes target = false :=
  (declared_of_reads h).2

theorem reads_before_order {nodes : List Bound.Node}
    (h : (order nodes).order = before ++ node :: after) :
    ∀ target ∈ (dependencyEdges nodes).targets node, target ∈ before := by
  obtain ⟨-, placed, hordered⟩ := exists_order nodes
  exact hordered.reads_before plain_of_reads h

/-- Each declaration is written once, after all that it reads. Outputs come last. Before them stands
at each place the first declaration that can be written there, until none can. -/
theorem order_declaration_stable (nodes : List Bound.Node) :
    (order nodes).order.Nodup ∧
    (∀ before node after, (order nodes).order = before ++ node :: after →
      (∀ target ∈ (dependencyEdges nodes).targets node, target ∈ before) ∧
      (isOutputAt nodes node = true → ∀ later ∈ after, isOutputAt nodes later = true) ∧
      (isOutputAt nodes node = false →
        IsLeast {other | Available (dependencyEdges nodes) (isOutputAt nodes) before other} node)) ∧
    ∀ node < nodes.length, ¬ (dependencyEdges nodes).OnCycle node →
      (∀ target ∈ (dependencyEdges nodes).targets node, target ∈ (order nodes).order) →
      node ∈ (order nodes).order := by
  obtain ⟨-, placed, h⟩ := exists_order nodes
  refine ⟨h.nodup_order, fun before node after hsplit => ⟨reads_before_order hsplit, ?_,
    h.isLeast_available plain_of_reads hsplit⟩, fun node hlt hcycle htargets => ?_⟩
  · have hlast := h.outputs_last
    rw [hsplit, List.pairwise_append, List.pairwise_cons] at hlast
    exact fun houtput later hlater => hlast.2.1.1 later hlater houtput
  · rw [h.mem_order, h.mem_placed]
    refine ⟨by simpa using hlt, fun member hreaches => ?_⟩
    rcases hreaches.cases_head with rfl | ⟨target, hread, hrest⟩
    · exact hcycle
    · exact ((h.mem_placed target).mp (h.mem_order.mp (htargets target hread))).2 member hrest

/-- Outputs keep the order of their declarations just when none overtakes another; none does when
all outputs are declared last. -/
theorem outputs_increasing_iff (nodes : List Bound.Node) :
    (((order nodes).order.filter (isOutputAt nodes)).Pairwise (· < ·) ↔
      ∀ earlier ∈ (order nodes).order.filter (isOutputAt nodes),
      ∀ later ∈ (order nodes).order.filter (isOutputAt nodes), earlier < later →
        ¬ Overtakes (dependencyEdges nodes) ((order nodes).order.filter (!isOutputAt nodes ·))
          later earlier) ∧
    ((∀ plain output, isOutputAt nodes plain = false → isOutputAt nodes output = true →
        plain < nodes.length → plain < output) →
      ((order nodes).order.filter (isOutputAt nodes)).Pairwise (· < ·)) := by
  obtain ⟨-, placed, h⟩ := exists_order nodes
  rw [h.filter_output, h.filter_plain]
  refine ⟨h.pairwise_outputs_iff plain_of_reads, fun hlast => ?_⟩
  rw [h.pairwise_outputs_iff plain_of_reads]
  rintro earlier - later hlater - ⟨before, stalling, rest, hsplit, hstalling, -⟩
  have hmem : stalling ∈ placed.filter (!isOutputAt nodes ·) := by simp [hsplit]
  simp only [List.mem_filter, Bool.not_eq_true'] at hmem hlater
  have hlength : stalling < nodes.length := by
    simpa using ((h.mem_placed stalling).mp hmem.1).1
  have hbefore := hlast stalling later hmem.2 hlater.2 hlength
  omega

def outputsFirst : List Bound.Node :=
  [⟨"address", .output (.access ⟨"bucket", .resource "aws:s3:Bucket", [.field "id"]⟩
      (.eventual .string))⟩,
    ⟨"label", .output (.literal (.string "x") .string)⟩,
    ⟨"bucket", .resource "aws:s3:Bucket" [] {}⟩]

/-- The second output comes up before the bucket and so before the first output. -/
theorem not_increasing_outputsFirst :
    ¬ ((order outputsFirst).order.filter (isOutputAt outputsFirst)).Pairwise (· < ·) := by
  have horder : (order outputsFirst).order = [2, 1, 0] := by decide +kernel
  rw [horder]
  decide

end Provision.Graph
