import Provision.Proofs.Graph.Search

/-!
# Closing a component

A node that is left with its own number as lowlink is closed together with what stands above it on
the stack. Nothing there reads a node below, so its members reach each other and nothing else that
is still on the stack.
-/

namespace Provision.Graph

variable {other target : Nat}

namespace Search

theorem unstack_append {node : Nat} {above : List Nat} (below : List Nat) (h : node ∉ above) :
    unstack node (above ++ node :: below) = (above ++ [node], below) := by
  induction above with
  | nil => simp [unstack]
  | cons member above ih =>
    rw [List.mem_cons, not_or] at h
    simp [unstack, ih h.2, Ne.symm h.1]

theorem sublist_below {node : Nat} {above below rest : List Nat} (h : node ∉ above)
    (hsublist : (node :: rest).Sublist (above ++ node :: below)) : rest.Sublist below := by
  induction above with
  | nil => simpa using hsublist
  | cons member above ih =>
    rw [List.mem_cons, not_or] at h
    cases hsublist with
    | cons _ hsublist => exact ih h.2 hsublist
    | cons_cons => exact absurd rfl h.1

theorem size_settle (members : List Nat) (marks : Array Mark) :
    (members.foldl (fun marks member => marks.setIfInBounds member .settled) marks).size =
      marks.size := by
  induction members generalizing marks with
  | nil => rfl
  | cons member members ih => simp [ih]

theorem marks_settle (members : List Nat) (marks : Array Mark)
    (hrange : ∀ member ∈ members, member < marks.size) (node : Nat) :
    (members.foldl (fun marks member => marks.setIfInBounds member .settled) marks)[node]? =
      if node ∈ members then some .settled else marks[node]? := by
  induction members generalizing marks with
  | nil => simp
  | cons member members ih =>
    have hmember : member < marks.size := hrange member List.mem_cons_self
    have hrest : ∀ other ∈ members, other < (marks.setIfInBounds member .settled).size := by
      intro other hother
      rw [Array.size_setIfInBounds]
      exact hrange other (List.mem_cons_of_mem _ hother)
    rw [List.foldl_cons, ih _ hrest, Array.getElem?_setIfInBounds]
    by_cases hmem : node ∈ members
    · simp [hmem]
    · by_cases heq : member = node
      · simp [heq, heq ▸ hmember]
      · simp [hmem, heq, Ne.symm heq]

section Close

variable {edges : Edges} {search : Search} {node position : Nat} {rest : List (Nat × Nat)}

structure Closable (edges : Edges) (search : Search) (node position : Nat)
    (rest : List (Nat × Nat)) (above below : List Nat) : Prop where
  valid : Valid edges search
  work : search.work = (node, position) :: rest
  done : (edges.targets node).length ≤ position
  lowlink : search.lowlink node = search.index node
  stack : search.stack = above ++ node :: below

namespace Closable

variable {above below : List Nat} (h : Closable edges search node position rest above below)

include h

theorem active : node ∈ search.active := by
  simp [Search.active, h.work]

theorem not_mem_above : node ∉ above := by
  have hnodup := h.valid.nodup
  rw [h.stack, List.nodup_append] at hnodup
  exact fun hmem => hnodup.2.2 node hmem node List.mem_cons_self rfl

theorem mem_members :
    other ∈ above ++ [node] ↔ other ∈ search.stack ∧ search.index node ≤ search.index other := by
  have horder := h.valid.order
  rw [h.stack, List.pairwise_append, List.pairwise_cons] at horder
  obtain ⟨-, ⟨hbelow, -⟩, habove⟩ := horder
  rw [h.stack]
  simp only [List.mem_append, List.mem_cons, List.not_mem_nil, or_false]
  constructor
  · rintro (hmem | rfl)
    · exact ⟨.inl hmem, Nat.le_of_lt (habove other hmem node List.mem_cons_self)⟩
    · exact ⟨.inr (.inl rfl), Nat.le_refl _⟩
  · rintro ⟨hmem | rfl | hmem, hle⟩
    · exact .inl hmem
    · exact .inr rfl
    · exact absurd (hbelow other hmem) (Nat.not_lt_of_le hle)

theorem mem_stack : other ∈ search.stack ↔ other ∈ above ++ [node] ∨ other ∈ below := by
  rw [h.stack]
  simp [or_assoc]

theorem mem_below :
    other ∈ below ↔ other ∈ search.stack ∧ search.index other < search.index node := by
  have horder := h.valid.order
  rw [h.stack, List.pairwise_append, List.pairwise_cons] at horder
  constructor
  · exact fun hmem => ⟨h.mem_stack.mpr (.inr hmem), horder.2.1.1 other hmem⟩
  · rintro ⟨hmem, hlt⟩
    refine (h.mem_stack.mp hmem).resolve_left fun hmember => ?_
    exact absurd (h.mem_members.mp hmember).2 (Nat.not_le_of_lt hlt)

theorem mem_of_reads (hrange : edges.InRange) (hother : other ∈ above ++ [node])
    (hread : edges.Reads other target) :
    target ∈ above ++ [node] ∨ target ∈ search.components.flatten := by
  obtain ⟨hmem, hle⟩ := h.mem_members.mp hother
  have hscanned : Scanned edges search.work other target := by
    refine ⟨hread, fun place hplace => ?_⟩
    rw [h.work] at hplace
    rcases List.mem_cons.mp hplace with hframe | hrest
    · obtain ⟨rfl, rfl⟩ := Prod.mk.inj hframe
      rw [List.take_of_length_le h.done]
      exact hread
    · have hlt := h.valid.index_lt_top h.work (List.mem_map_of_mem hrest)
      exact absurd hle (Nat.not_le_of_lt hlt)
  have hsize : target < search.marks.size := by
    rw [h.valid.size]
    exact hrange.lt_length hread
  cases hmark : search.marks[target]? with
  | none => exact absurd hmark (by simp [hsize])
  | some mark =>
    cases mark with
    | unseen => exact absurd hmark (h.valid.seen other hmem target hscanned)
    | settled => exact .inr ((h.valid.mem_components target).mpr hmark)
    | pending index lowlink =>
      have hstack : target ∈ search.stack := (h.valid.mem_stack target).mpr ⟨_, _, hmark⟩
      have hcovered := h.valid.covered other hmem target hstack hscanned node h.active hle
        fun near hnear _ => h.valid.index_le_top h.work hnear
      rw [h.lowlink] at hcovered
      exact .inl (h.mem_members.mpr ⟨hstack, hcovered⟩)

theorem mem_of_reaches (hrange : edges.InRange) (hother : other ∈ above ++ [node])
    (hreaches : edges.Reaches other target) :
    target ∈ above ++ [node] ∨ target ∈ search.components.flatten := by
  induction hreaches with
  | refl => exact .inl hother
  | tail _ hread ih =>
    rcases ih with hmember | hsettled
    · exact h.mem_of_reads hrange hmember hread
    · exact .inr (h.valid.found.mem_of_reads hsettled hread)

theorem not_mem_components (hother : other ∈ search.stack) : other ∉ search.components.flatten := by
  intro hmem
  obtain ⟨index, lowlink, hmark⟩ := (h.valid.mem_stack other).mp hother
  rw [h.valid.mem_components, hmark] at hmem
  simp at hmem

private theorem reaches_node (hrange : edges.InRange) (hother : other ∈ above ++ [node]) :
    edges.Reaches other node := by
  obtain ⟨near, hnear, -, hreaches⟩ := h.valid.up other (h.mem_members.mp hother).1
  have hstack := h.valid.mem_stack_of_active hnear
  have hmember := (h.mem_of_reaches hrange hother hreaches).resolve_right
    (h.not_mem_components hstack)
  have heq : near = node := by
    refine h.valid.eq_of_index_eq hstack (h.valid.mem_stack_of_active h.active) ?_
    exact Nat.le_antisymm (h.valid.index_le_top h.work hnear) (h.mem_members.mp hmember).2
  rwa [heq] at hreaches

private theorem reaches_member (hrange : edges.InRange) {source : Nat}
    (hsource : source ∈ above ++ [node]) (htarget : target ∈ above ++ [node]) :
    edges.Reaches source target := by
  obtain ⟨hmem, hle⟩ := h.mem_members.mp htarget
  exact (h.reaches_node hrange hsource).trans (h.valid.down node h.active target hmem hle)

theorem close_eq : close { search with work := rest } node =
    { marks := (above ++ [node]).foldl (fun marks member => marks.setIfInBounds member .settled)
        search.marks
      stack := below
      next := search.next
      work := rest
      components := (above ++ [node]).mergeSort :: search.components } := by
  simp only [close, h.stack, unstack_append below h.not_mem_above]

theorem pairwise_mergeSort : (above ++ [node]).mergeSort.Pairwise (· < ·) := by
  have hnodup : (above ++ [node]).Nodup := by
    have hnodup := h.valid.nodup
    rw [h.stack, ← List.singleton_append, ← List.append_assoc] at hnodup
    exact (List.nodup_append.mp hnodup).1
  have hne : (above ++ [node]).mergeSort.Pairwise (· ≠ ·) :=
    (List.mergeSort_perm _ _).nodup_iff.mpr hnodup
  have hle : (above ++ [node]).mergeSort.Pairwise (fun u v => decide (u ≤ v) = true) :=
    List.pairwise_mergeSort (by simp; omega) (by simp; omega) _
  refine (hle.and hne).imp fun hboth => ?_
  exact Nat.lt_of_le_of_ne (of_decide_eq_true hboth.1) hboth.2

theorem found (hrange : edges.InRange) :
    Found edges ((above ++ [node]).mergeSort :: search.components) := by
  refine .cons ?_ h.pairwise_mergeSort ?_ ?_ ?_ h.valid.found
  · exact List.ne_nil_of_mem (List.mem_mergeSort.mpr (List.mem_append_right above (.head [])))
  · intro source hsource target htarget
    rw [List.mem_mergeSort] at hsource htarget
    exact h.reaches_member hrange hsource htarget
  · intro source hsource target htarget
    rw [List.mem_mergeSort] at hsource ⊢
    exact h.mem_of_reads hrange hsource htarget
  · intro member hmember
    rw [List.mem_mergeSort] at hmember
    exact h.not_mem_components (h.mem_members.mp hmember).1

theorem marks_close (other : Nat) :
    (close { search with work := rest } node).marks[other]? =
      if other ∈ above ++ [node] then some .settled else search.marks[other]? := by
  rw [h.close_eq]
  refine marks_settle _ _ (fun member hmember => ?_) other
  rw [h.valid.size]
  exact h.valid.lt_length (h.mem_members.mp hmember).1

theorem not_mem_members (hother : other ∈ below) : other ∉ above ++ [node] := by
  intro hmember
  have hle := (h.mem_members.mp hmember).2
  have hlt := (h.mem_below.mp hother).2
  omega

private theorem index_close (hother : other ∈ below) :
    (close { search with work := rest } node).index other = search.index other ∧
      (close { search with work := rest } node).lowlink other = search.lowlink other := by
  simp only [Search.index, Search.lowlink, h.marks_close, if_neg (h.not_mem_members hother)]
  exact ⟨trivial, trivial⟩

private theorem tied_below : Tied edges search.index search.lowlink below rest := by
  have valid := h.valid
  have hold := fun other (hother : other ∈ rest.map Prod.fst) =>
    mem_active_of_mem_rest h.work hother
  have hkept : ∀ other ∈ below, other ∈ search.stack := fun _ hother => (h.mem_below.mp hother).1
  constructor
  case order =>
    have horder := valid.order
    rw [h.stack, List.pairwise_append, List.pairwise_cons] at horder
    exact horder.2.1.2
  case active =>
    have hsublist := valid.active
    rw [h.work, List.map_cons, h.stack] at hsublist
    exact sublist_below h.not_mem_above hsublist
  case down =>
    exact fun other hother above habove => valid.down other (hold other hother) above
      (hkept above habove)
  case up =>
    intro other hother
    obtain ⟨near, hnear, hle, hreaches⟩ := valid.up other (hkept other hother)
    have hlt := (h.mem_below.mp hother).2
    exact ⟨near, mem_rest_of_index_lt h.work hnear (Nat.lt_of_le_of_lt hle hlt), hle, hreaches⟩
  case lowlink_le => exact fun other hother => valid.lowlink_le other (hold other hother)
  case lowlink_reached =>
    intro other hother
    obtain ⟨low, hlow, hindex, hreaches⟩ := valid.lowlink_reached other (hold other hother)
    have hle := valid.lowlink_le other (hold other hother)
    have hlt := valid.index_lt_top h.work hother
    exact ⟨low, h.mem_below.mpr ⟨hlow, by omega⟩, hindex, hreaches⟩
  case covered =>
    intro other hother target htarget hscanned owner howner hle hnearest
    refine valid.covered other (hkept other hother) target (hkept target htarget)
      (hscanned.of_leave h.work h.done) owner (hold owner howner) hle fun near hnear hbelow => ?_
    have hlt := (h.mem_below.mp hother).2
    exact hnearest near (mem_rest_of_index_lt h.work hnear (Nat.lt_of_le_of_lt hbelow hlt)) hbelow

theorem valid_close (hrange : edges.InRange) :
    Valid edges (close { search with work := rest } node) := by
  have valid := h.valid
  have hmarks := h.marks_close
  have hsame := fun other (hother : other ∈ below) => h.index_close hother
  have htied := h.tied_below.congr (fun other hother => (hsame other hother).1)
    fun other hother => (hsame other hother).2
  have hkept : ∀ other ∈ below, other ∈ search.stack := fun _ hother => (h.mem_below.mp hother).1
  have hstack : (close { search with work := rest } node).stack = below := by rw [h.close_eq]
  have hwork : (close { search with work := rest } node).work = rest := by rw [h.close_eq]
  have hnext : (close { search with work := rest } node).next = search.next := by rw [h.close_eq]
  have hcomponents : (close { search with work := rest } node).components =
      (above ++ [node]).mergeSort :: search.components := by
    rw [h.close_eq]
  have hsize : (close { search with work := rest } node).marks.size = edges.length := by
    rw [h.close_eq, size_settle, valid.size]
  generalize close { search with work := rest } node = closed at *
  constructor
  case toTied => rwa [hstack, hwork]
  case size => exact hsize
  case mem_stack =>
    intro other
    simp only [hstack, IsPending, hmarks]
    by_cases hmember : other ∈ above ++ [node]
    · have hnot : other ∉ below := fun hbelow => h.not_mem_members hbelow hmember
      simp [hmember, hnot]
    · have hiff := valid.mem_stack other
      rw [h.mem_stack, IsPending] at hiff
      rw [if_neg hmember]
      simpa only [hmember, false_or] using hiff
  case mem_components =>
    intro other
    rw [hcomponents, List.flatten_cons, List.mem_append, List.mem_mergeSort, hmarks]
    by_cases hmember : other ∈ above ++ [node]
    · simp only [hmember, true_or, if_true]
    · simpa only [hmember, false_or, if_false] using valid.mem_components other
  case index_lt =>
    intro other hother
    rw [hstack] at hother
    rw [(hsame other hother).1, hnext]
    exact valid.index_lt other (hkept other hother)
  case seen =>
    intro other hother target hscanned
    rw [hstack] at hother
    rw [hwork] at hscanned
    rw [hmarks]
    split
    · simp
    · exact valid.seen other (hkept other hother) target (hscanned.of_leave h.work h.done)
  case found =>
    rw [hcomponents]
    exact h.found hrange

end Closable

end Close

end Search

end Provision.Graph
