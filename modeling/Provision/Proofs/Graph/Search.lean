import Mathlib.Data.List.Pairwise
import Provision.Proofs.Graph.Condensation

/-!
# The invariant of the search for components

The active nodes, those in the work list, lie on a path. Every node on the stack is reached from
the active nodes numbered before it and reaches one of them, so what stands above an active node
that reaches nothing lower is a component. `Tied` states this together with what lowlinks say, and
`Valid` how it goes with the marks. Each change that a step makes to the search keeps both.
-/

namespace Provision.Graph

namespace Search

/-! ## Views of a search -/

def index (search : Search) (node : Nat) : Nat :=
  match search.marks[node]? with
  | some (.pending index _) => index
  | _ => 0

def lowlink (search : Search) (node : Nat) : Nat :=
  match search.marks[node]? with
  | some (.pending _ lowlink) => lowlink
  | _ => 0

abbrev active (search : Search) : List Nat := search.work.map Prod.fst

def IsPending (search : Search) (node : Nat) : Prop :=
  ∃ index lowlink, search.marks[node]? = some (.pending index lowlink)

/-- A target that has been looked at: any target of a node that is not active any more. -/
def Scanned (edges : Edges) (work : List (Nat × Nat)) (node target : Nat) : Prop :=
  target ∈ edges.targets node ∧
    ∀ position, (node, position) ∈ work → target ∈ (edges.targets node).take position

theorem index_of_pending {search : Search} {node index lowlink : Nat}
    (h : search.marks[node]? = some (.pending index lowlink)) :
    search.index node = index ∧ search.lowlink node = lowlink := by
  simp [Search.index, Search.lowlink, h]

/-! ## The invariant -/

/-- How the nodes on the stack hang together, by their numbers and lowlinks. -/
structure Tied (edges : Edges) (index lowlink : Nat → Nat) (stack : List Nat)
    (work : List (Nat × Nat)) : Prop where
  order : stack.Pairwise fun above below => index below < index above
  active : (work.map Prod.fst).Sublist stack
  down : ∀ node ∈ work.map Prod.fst, ∀ above ∈ stack, index node ≤ index above →
    edges.Reaches node above
  up : ∀ node ∈ stack, ∃ below ∈ work.map Prod.fst, index below ≤ index node ∧
    edges.Reaches node below
  lowlink_le : ∀ node ∈ work.map Prod.fst, lowlink node ≤ index node
  lowlink_reached : ∀ node ∈ work.map Prod.fst, ∃ low ∈ stack, index low = lowlink node ∧
    edges.Reaches node low
  /-- The lowlink of an active node bounds what has been looked at from it up to the next active
  node. -/
  covered : ∀ node ∈ stack, ∀ target ∈ stack, Scanned edges work node target →
    ∀ owner ∈ work.map Prod.fst, index owner ≤ index node →
    (∀ other ∈ work.map Prod.fst, index other ≤ index node → index other ≤ index owner) →
    lowlink owner ≤ index target

structure Valid (edges : Edges) (search : Search) : Prop extends
    Tied edges search.index search.lowlink search.stack search.work where
  size : search.marks.size = edges.length
  mem_stack : ∀ node, node ∈ search.stack ↔ search.IsPending node
  mem_components : ∀ node, node ∈ search.components.flatten ↔ search.marks[node]? = some .settled
  index_lt : ∀ node ∈ search.stack, search.index node < search.next
  seen : ∀ node ∈ search.stack, ∀ target, Scanned edges search.work node target →
    search.marks[target]? ≠ some .unseen
  found : Found edges search.components

theorem Valid.lt_length {edges : Edges} {search : Search} (valid : Valid edges search) {node : Nat}
    (h : node ∈ search.stack) : node < edges.length := by
  obtain ⟨index, lowlink, hmark⟩ := (valid.mem_stack node).mp h
  rw [← valid.size]
  exact (Array.getElem?_eq_some_iff.mp hmark).1

theorem Scanned.of_enter {edges : Edges} {work : List (Nat × Nat)} {node other target : Nat}
    (h : Scanned edges ((node, 0) :: work) other target) :
    other ≠ node ∧ Scanned edges work other target := by
  obtain ⟨htarget, hposition⟩ := h
  refine ⟨fun heq => ?_, htarget, fun position hmem => hposition position (by simp [hmem])⟩
  have hnone := hposition 0 (by simp [heq])
  simp at hnone

namespace Tied

variable {edges : Edges} {index lowlink : Nat → Nat} {stack : List Nat}
  {work rest : List (Nat × Nat)} {node position : Nat}
  (tied : Tied edges index lowlink stack work)

include tied

theorem mem_stack_of_active (h : node ∈ work.map Prod.fst) : node ∈ stack :=
  tied.active.subset h

private theorem index_ne {left right : Nat} (hleft : left ∈ stack) (hright : right ∈ stack)
    (h : left ≠ right) : index left ≠ index right := by
  have hpairwise : stack.Pairwise fun u v => index u ≠ index v :=
    tied.order.imp fun hlt => Nat.ne_of_gt hlt
  have : Std.Symm fun u v => index u ≠ index v := ⟨fun _ _ hne => hne.symm⟩
  exact hpairwise.forall hleft hright h

theorem eq_of_index_eq {left right : Nat} (hleft : left ∈ stack) (hright : right ∈ stack)
    (h : index left = index right) : left = right := by
  by_contra hne
  exact tied.index_ne hleft hright hne h

theorem nodup : stack.Nodup :=
  tied.order.imp fun hlt heq => by
    subst heq
    exact Nat.lt_irrefl _ hlt

theorem active_order : (work.map Prod.fst).Pairwise fun above below => index below < index above :=
  tied.order.sublist tied.active

theorem index_lt_top (hwork : work = (node, position) :: rest) {other : Nat}
    (hother : other ∈ rest.map Prod.fst) : index other < index node := by
  have hpairwise := tied.active_order
  rw [hwork, List.map_cons, List.pairwise_cons] at hpairwise
  exact hpairwise.1 other hother

theorem index_le_top (hwork : work = (node, position) :: rest) {other : Nat}
    (hother : other ∈ work.map Prod.fst) : index other ≤ index node := by
  rw [hwork, List.map_cons] at hother
  rcases List.mem_cons.mp hother with rfl | hmem
  · exact Nat.le_refl _
  · exact Nat.le_of_lt (tied.index_lt_top hwork hmem)

private theorem reaches_of_reads_top {target : Nat}
    (hread : ∀ top ∈ (work.map Prod.fst).head?, edges.Reads top target)
    (h : node ∈ work.map Prod.fst) : edges.Reaches node target := by
  cases hwork : work with
  | nil => simp [hwork] at h
  | cons frame rest =>
    have htop : frame.1 ∈ work.map Prod.fst := by simp [hwork]
    have hreaches := tied.down node h frame.1 (tied.mem_stack_of_active htop)
      (tied.index_le_top hwork h)
    exact hreaches.tail (hread frame.1 (by simp [hwork]))

theorem congr {index' lowlink' : Nat → Nat} (hindex : ∀ node ∈ stack, index' node = index node)
    (hlowlink : ∀ node ∈ stack, lowlink' node = lowlink node) :
    Tied edges index' lowlink' stack work where
  order := tied.order.imp_of_mem fun habove hbelow hlt => by
    rwa [hindex _ habove, hindex _ hbelow]
  active := tied.active
  down node hnode above habove hle := by
    rw [hindex _ (tied.mem_stack_of_active hnode), hindex _ habove] at hle
    exact tied.down node hnode above habove hle
  up node hnode := by
    obtain ⟨below, hbelow, hle, hreaches⟩ := tied.up node hnode
    refine ⟨below, hbelow, ?_, hreaches⟩
    rwa [hindex _ (tied.mem_stack_of_active hbelow), hindex _ hnode]
  lowlink_le node hnode := by
    have hmem := tied.mem_stack_of_active hnode
    rw [hlowlink _ hmem, hindex _ hmem]
    exact tied.lowlink_le node hnode
  lowlink_reached node hnode := by
    obtain ⟨low, hlow, heq, hreaches⟩ := tied.lowlink_reached node hnode
    refine ⟨low, hlow, ?_, hreaches⟩
    rw [hindex _ hlow, heq, hlowlink _ (tied.mem_stack_of_active hnode)]
  covered node hnode target htarget hscanned owner howner hle hnearest := by
    have hmem := tied.mem_stack_of_active howner
    rw [hindex _ hmem, hindex _ hnode] at hle
    rw [hlowlink _ hmem, hindex _ htarget]
    refine tied.covered node hnode target htarget hscanned owner howner hle
      fun near hnear hbelow => ?_
    have hleast := hnearest near hnear
    rw [hindex _ (tied.mem_stack_of_active hnear), hindex _ hnode, hindex _ hmem] at hleast
    exact hleast hbelow

theorem push (hindex : ∀ other ∈ stack, index other < index node)
    (hlowlink : lowlink node = index node)
    (hread : ∀ top ∈ (work.map Prod.fst).head?, edges.Reads top node)
    (hnew : ∀ other ∈ stack, ¬ Scanned edges work other node) :
    Tied edges index lowlink (node :: stack) ((node, 0) :: work) where
  order := List.pairwise_cons.mpr ⟨hindex, tied.order⟩
  active := tied.active.cons_cons node
  down other hmem above habove hle := by
    rcases List.mem_cons.mp hmem with rfl | hold <;>
      rcases List.mem_cons.mp habove with rfl | hbelow
    · exact .refl
    · exact absurd (hindex above hbelow) (Nat.not_lt_of_le hle)
    · exact tied.reaches_of_reads_top hread hold
    · exact tied.down other hold above hbelow hle
  up other hmem := by
    rcases List.mem_cons.mp hmem with rfl | hmem
    · exact ⟨other, List.mem_cons_self, Nat.le_refl _, .refl⟩
    · obtain ⟨below, hbelow, hreaches⟩ := tied.up other hmem
      exact ⟨below, List.mem_cons_of_mem _ hbelow, hreaches⟩
  lowlink_le other hmem := by
    rcases List.mem_cons.mp hmem with rfl | hmem
    · exact Nat.le_of_eq hlowlink
    · exact tied.lowlink_le other hmem
  lowlink_reached other hmem := by
    rcases List.mem_cons.mp hmem with rfl | hmem
    · exact ⟨other, List.mem_cons_self, hlowlink.symm, .refl⟩
    · obtain ⟨low, hlow, hreaches⟩ := tied.lowlink_reached other hmem
      exact ⟨low, List.mem_cons_of_mem _ hlow, hreaches⟩
  covered other hmem target htarget hscanned owner howner hle hnearest := by
    obtain ⟨hne, hbefore⟩ := Scanned.of_enter hscanned
    have hold : other ∈ stack := (List.mem_cons.mp hmem).resolve_left hne
    -- The new node has no scanned targets and is numbered above every node that has.
    have hactive : owner ∈ work.map Prod.fst := by
      rcases List.mem_cons.mp howner with rfl | h
      · exact absurd (hindex other hold) (Nat.not_lt_of_le hle)
      · exact h
    have hseen : target ∈ stack := by
      rcases List.mem_cons.mp htarget with rfl | h
      · exact absurd hbefore (hnew other hold)
      · exact h
    exact tied.covered other hold target hseen hbefore owner hactive hle
      fun near hnear => hnearest near (List.mem_cons_of_mem _ hnear)

end Tied

/-! ## Entering a node -/

section Enter

variable {edges : Edges} {search : Search} {node : Nat}

theorem marks_enter (hnode : node < search.marks.size) (other : Nat) :
    (search.enter node).marks[other]? =
      if other = node then some (.pending search.next search.next)
      else search.marks[other]? := by
  simp only [enter, Array.getElem?_setIfInBounds, hnode, if_true]
  by_cases h : node = other <;> simp [h, eq_comm]

theorem index_enter_self (hnode : node < search.marks.size) :
    (search.enter node).index node = search.next ∧
      (search.enter node).lowlink node = search.next :=
  index_of_pending (by simp [marks_enter hnode])

theorem index_enter_of_ne (hnode : node < search.marks.size) {other : Nat} (h : other ≠ node) :
    (search.enter node).index other = search.index other ∧
      (search.enter node).lowlink other = search.lowlink other := by
  simp [index, lowlink, marks_enter hnode, h]

theorem Valid.enter (valid : Valid edges search) (hnew : search.marks[node]? = some .unseen)
    (hread : ∀ top ∈ search.active.head?, edges.Reads top node) :
    Valid edges (search.enter node) := by
  have hnode : node < search.marks.size := (Array.getElem?_eq_some_iff.mp hnew).1
  have hstack : ∀ other ∈ search.stack, other ≠ node := by
    rintro other hother rfl
    obtain ⟨index, lowlink, hmark⟩ := (valid.mem_stack other).mp hother
    simp [hnew] at hmark
  have hself := index_enter_self hnode
  have hother := fun other (h : other ∈ search.stack) => index_enter_of_ne hnode (hstack other h)
  have htied := valid.toTied.congr (fun other h => (hother other h).1)
    fun other h => (hother other h).2
  have hindex : ∀ other ∈ search.stack,
      (search.enter node).index other < (search.enter node).index node := by
    intro other hmem
    rw [(hother other hmem).1, hself.1]
    exact valid.index_lt other hmem
  constructor
  case toTied =>
    exact htied.push hindex (hself.2.trans hself.1.symm) hread
      fun other hmem hscanned => valid.seen other hmem node hscanned hnew
  case size => simpa [Search.enter] using valid.size
  case mem_stack =>
    intro other
    by_cases heq : other = node
    · simp [heq, Search.enter, IsPending, hnode]
    · have hmark := marks_enter hnode other
      rw [if_neg heq] at hmark
      rw [IsPending, hmark]
      simpa [Search.enter, heq, IsPending] using valid.mem_stack other
  case mem_components =>
    intro other
    rw [marks_enter hnode]
    by_cases heq : other = node
    · have hfree := valid.mem_components node
      rw [hnew] at hfree
      simpa [heq, Search.enter] using hfree
    · simpa [heq, Search.enter] using valid.mem_components other
  case index_lt =>
    intro other hmem
    rcases List.mem_cons.mp hmem with rfl | hmem
    · rw [hself.1]
      exact Nat.lt_succ_self _
    · exact Nat.lt_succ_of_lt (hself.1 ▸ hindex other hmem)
  case seen =>
    intro other hmem target hscanned
    obtain ⟨hne, hscanned⟩ := Scanned.of_enter hscanned
    have hmem : other ∈ search.stack := by simpa [Search.enter, hne] using hmem
    rw [marks_enter hnode]
    split
    · simp
    · exact valid.seen other hmem target hscanned
  case found => exact valid.found

end Enter

/-! ## Lowering a lowlink -/

section Lower

variable {edges : Edges} {search lowered : Search} {node bound : Nat}

structure Lowered (search : Search) (node bound : Nat) (lowered : Search) : Prop where
  size : lowered.marks.size = search.marks.size
  stack : lowered.stack = search.stack
  next : lowered.next = search.next
  work : lowered.work = search.work
  components : lowered.components = search.components
  isPending : ∀ other, lowered.IsPending other ↔ search.IsPending other
  settled : ∀ other : Nat,
    lowered.marks[other]? = some .settled ↔ search.marks[other]? = some .settled
  unseen : ∀ other : Nat, lowered.marks[other]? = some .unseen ↔ search.marks[other]? = some .unseen
  index : ∀ other, lowered.index other = search.index other
  lowlink : ∀ other, lowered.lowlink other =
    if other = node then min (search.lowlink other) bound else search.lowlink other

theorem exists_lower (h : search.IsPending node) (bound : Nat) :
    ∃ lowered, search.lower node bound = some lowered ∧ Lowered search node bound lowered := by
  obtain ⟨index, lowlink, hmark⟩ := h
  have hnode : node < search.marks.size := (Array.getElem?_eq_some_iff.mp hmark).1
  have hmarks : ∀ other,
      (search.marks.setIfInBounds node (.pending index (min lowlink bound)))[other]? =
        if other = node then some (.pending index (min lowlink bound))
        else search.marks[other]? := by
    intro other
    simp only [Array.getElem?_setIfInBounds, hnode, if_true]
    by_cases heq : node = other <;> simp [heq, eq_comm]
  refine ⟨_, by simp only [lower, hmark]; rfl, ?_⟩
  constructor
  case size => simp
  case stack => rfl
  case next => rfl
  case work => rfl
  case components => rfl
  all_goals
    intro other
    by_cases heq : other = node <;>
      simp [IsPending, Search.index, Search.lowlink, hmarks, heq, hmark]

theorem Lowered.lowlink_le (h : Lowered search node bound lowered) (other : Nat) :
    lowered.lowlink other ≤ search.lowlink other := by
  rw [h.lowlink]
  split
  · exact Nat.min_le_left _ _
  · exact Nat.le_refl _

theorem Valid.lower (valid : Valid edges search) (h : Lowered search node bound lowered)
    (hbound : ∃ low ∈ search.stack, search.index low = bound ∧ edges.Reaches node low) :
    Valid edges lowered where
  toTied := by
    rw [funext h.index, h.stack, h.work]
    refine { valid.toTied with lowlink_le := ?_, lowlink_reached := ?_, covered := ?_ }
    · exact fun other hmem => Nat.le_trans (h.lowlink_le other) (valid.lowlink_le other hmem)
    · intro other hmem
      rw [h.lowlink]
      split
      · next heq =>
        subst heq
        rcases Nat.le_total (search.lowlink other) bound with hle | hle
        · rw [Nat.min_eq_left hle]
          exact valid.lowlink_reached other hmem
        · rwa [Nat.min_eq_right hle]
      · exact valid.lowlink_reached other hmem
    · intro other hmem target htarget hscanned owner howner hle hnearest
      exact Nat.le_trans (h.lowlink_le owner)
        (valid.covered other hmem target htarget hscanned owner howner hle hnearest)
  size := by rw [h.size, valid.size]
  mem_stack other := by rw [h.stack, h.isPending, valid.mem_stack]
  mem_components other := by rw [h.components, h.settled, valid.mem_components]
  index_lt := by simpa only [h.stack, h.index, h.next] using valid.index_lt
  seen := by simpa only [h.stack, h.work, ne_eq, h.unseen] using valid.seen
  found := by simpa only [h.components] using valid.found

end Lower

/-! ## Looking at a target -/

section Advance

variable {edges : Edges} {search : Search} {node position target : Nat}
  {above rest : List (Nat × Nat)}

theorem Scanned.of_advance (htarget : (edges.targets node)[position]? = some target)
    {other seen : Nat} (h : Scanned edges (above ++ (node, position + 1) :: rest) other seen) :
    (other = node ∧ seen = target) ∨
      Scanned edges (above ++ (node, position) :: rest) other seen := by
  by_cases heq : other = node ∧ seen = target
  · exact .inl heq
  · obtain ⟨hseen, hpositions⟩ := h
    refine .inr ⟨hseen, fun place hplace => ?_⟩
    rcases List.mem_append.mp hplace with hmem | hmem
    · exact hpositions place (by simp [hmem])
    · rcases List.mem_cons.mp hmem with hframe | hmem
      · obtain ⟨rfl, rfl⟩ := Prod.mk.inj hframe
        have hnext := hpositions (place + 1) (by simp)
        rw [List.take_add_one, htarget] at hnext
        simpa [show seen ≠ target from fun h => heq ⟨rfl, h⟩] using hnext
      · exact hpositions place (by simp [hmem])

theorem Valid.advance (valid : Valid edges search) (above : List (Nat × Nat))
    (hwork : search.work = above ++ (node, position) :: rest)
    (htarget : (edges.targets node)[position]? = some target)
    (hseen : search.marks[target]? ≠ some .unseen)
    (hlowlink : target ∈ search.stack → search.lowlink node ≤ search.index target) :
    Valid edges { search with work := above ++ (node, position + 1) :: rest } := by
  have hactive : (above ++ (node, position + 1) :: rest).map Prod.fst = search.active := by
    simp [Search.active, hwork]
  have hscan : ∀ {other seen}, Scanned edges (above ++ (node, position + 1) :: rest) other seen →
      (other = node ∧ seen = target) ∨ Scanned edges search.work other seen := by
    intro other seen h
    rw [hwork]
    exact Scanned.of_advance htarget h
  refine { valid with
    active := ?active, seen := ?seen, down := ?down, up := ?up, lowlink_le := ?lowlink_le
    lowlink_reached := ?reached, covered := ?covered }
  case active => rw [hactive]; exact valid.active
  case seen =>
    intro other hmem seen hscanned
    rcases hscan hscanned with ⟨-, rfl⟩ | hscanned
    · exact hseen
    · exact valid.seen other hmem seen hscanned
  case down => rw [hactive]; exact valid.down
  case up => rw [hactive]; exact valid.up
  case lowlink_le => rw [hactive]; exact valid.lowlink_le
  case reached => rw [hactive]; exact valid.lowlink_reached
  case covered =>
    rw [hactive]
    intro other hmem seen hstack hscanned owner howner hle hnearest
    rcases hscan hscanned with ⟨rfl, rfl⟩ | hscanned
    · -- The node is active, so it is its own nearest active node.
      have hself := hnearest other (hactive ▸ by simp) (Nat.le_refl _)
      have howns : owner = other :=
        valid.eq_of_index_eq (valid.mem_stack_of_active howner) hmem (Nat.le_antisymm hle hself)
      rw [howns]
      exact hlowlink hstack
    · exact valid.covered other hmem seen hstack hscanned owner howner hle hnearest

end Advance

/-! ## Leaving a node -/

section Leave

variable {edges : Edges} {search : Search} {node position : Nat} {rest : List (Nat × Nat)}

theorem Scanned.of_leave (hwork : search.work = (node, position) :: rest)
    (hdone : (edges.targets node).length ≤ position) {other target : Nat}
    (h : Scanned edges rest other target) : Scanned edges search.work other target := by
  refine ⟨h.1, fun place hplace => ?_⟩
  rw [hwork] at hplace
  rcases List.mem_cons.mp hplace with hframe | hmem
  · obtain ⟨rfl, rfl⟩ := Prod.mk.inj hframe
    rw [List.take_of_length_le hdone]
    exact h.1
  · exact h.2 place hmem

theorem mem_active_of_mem_rest (hwork : search.work = (node, position) :: rest) {other : Nat}
    (hother : other ∈ rest.map Prod.fst) : other ∈ search.active := by
  rw [Search.active, hwork, List.map_cons]
  exact List.mem_cons_of_mem _ hother

theorem mem_rest_of_index_lt (hwork : search.work = (node, position) :: rest) {other : Nat}
    (hother : other ∈ search.active) (hlt : search.index other < search.index node) :
    other ∈ rest.map Prod.fst := by
  rw [Search.active, hwork, List.map_cons] at hother
  rcases List.mem_cons.mp hother with rfl | hmem
  · exact absurd hlt (Nat.lt_irrefl _)
  · exact hmem

/-- A node that reaches a lower number stays on the stack when it is left; the active node before
it answers for it from then on. -/
theorem Valid.leave (valid : Valid edges search)
    (hwork : search.work = (node, position) :: rest)
    (hdone : (edges.targets node).length ≤ position)
    (hlt : search.lowlink node < search.index node)
    (hparent : ∀ parent ∈ (rest.map Prod.fst).head?, search.lowlink parent ≤ search.lowlink node) :
    Valid edges { search with work := rest } := by
  have hnode : node ∈ search.active := by simp [Search.active, hwork]
  have hsubset : ∀ other ∈ rest.map Prod.fst, other ∈ search.active :=
    fun _ hother => mem_active_of_mem_rest hwork hother
  refine { valid with
    active := ?active, seen := ?seen, up := ?up, covered := ?covered
    down := fun other hmem => valid.down other (hsubset other hmem)
    lowlink_le := fun other hmem => valid.lowlink_le other (hsubset other hmem)
    lowlink_reached := fun other hmem => valid.lowlink_reached other (hsubset other hmem) }
  case active =>
    have hactive := valid.active
    rw [hwork, List.map_cons] at hactive
    exact (List.sublist_cons_self _ _).trans hactive
  case seen =>
    intro other hmem target hscanned
    exact valid.seen other hmem target (hscanned.of_leave hwork hdone)
  case up =>
    intro other hmem
    obtain ⟨below, hbelow, hle, hreaches⟩ := valid.up other hmem
    by_cases heq : below = node
    · subst heq
      obtain ⟨low, hlow, hindex, hlower⟩ := valid.lowlink_reached below hbelow
      obtain ⟨lower, hactive, hlast, hup⟩ := valid.up low hlow
      have hnear : search.index lower < search.index below := by omega
      have hrest := mem_rest_of_index_lt hwork hactive hnear
      refine ⟨lower, hrest, ?_, hreaches.trans (hlower.trans hup)⟩
      exact Nat.le_trans (Nat.le_of_lt hnear) hle
    · refine ⟨below, ?_, hle, hreaches⟩
      rw [hwork, List.map_cons] at hbelow
      exact (List.mem_cons.mp hbelow).resolve_left heq
  case covered =>
    intro other hmem target htarget hscanned owner howner hle hnearest
    have hbefore := hscanned.of_leave hwork hdone
    by_cases habove : search.index node ≤ search.index other
    · have hcovered := valid.covered other hmem target htarget hbefore node hnode habove
        fun near hnear _ => valid.index_le_top hwork hnear
      cases rest with
      | nil => simp at howner
      | cons frame rest =>
        -- The parent is numbered last among the nodes that stay active.
        have hlast : search.index frame.1 < search.index node :=
          valid.index_lt_top hwork (by simp)
        have hparentle := hnearest frame.1 (by simp)
          (Nat.le_trans (Nat.le_of_lt hlast) habove)
        have howns : owner = frame.1 := by
          have hpairwise := valid.active_order
          rw [hwork, List.map_cons, List.map_cons] at hpairwise
          have hbefore := (List.pairwise_cons.mp (List.pairwise_cons.mp hpairwise).2).1
          rcases List.mem_cons.mp howner with heq | hrest
          · exact heq
          · exact absurd hparentle (Nat.not_le_of_lt (hbefore owner hrest))
        rw [howns]
        exact Nat.le_trans (hparent frame.1 (by simp)) hcovered
    · refine valid.covered other hmem target htarget hbefore owner (hsubset owner howner) hle
        fun near hnear hbelow => hnearest near ?_ hbelow
      exact mem_rest_of_index_lt hwork hnear (by omega)

end Leave

end Search

end Provision.Graph
