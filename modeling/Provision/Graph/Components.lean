/-!
# Strongly connected components

A graph lists for each node the nodes it reads, by position. The components are found by Tarjan's
search. It numbers nodes as it enters them and keeps those without a component yet on a stack. A
work list of nodes that are being searched, each with how many of its targets have been looked at,
takes the place of recursion. The lowlink of a node is the least number it is known to reach on the
stack; a node that is left with its own number as lowlink ends its component.
-/

namespace Provision.Graph

abbrev Edges := List (List Nat)

namespace Edges

def targets (edges : Edges) (node : Nat) : List Nat :=
  edges.getD node []

def nodes (edges : Edges) : List Nat :=
  List.range edges.length

end Edges

/-- What the search knows of a node. A pending node is on the stack, a settled one has its
component. -/
inductive Mark where
  | unseen
  | pending (index lowlink : Nat)
  | settled
deriving DecidableEq, Repr

/-- The search so far; all lists hold the latest entry first. -/
structure Search where
  marks : Array Mark
  stack : List Nat
  next : Nat
  work : List (Nat × Nat)
  components : List (List Nat)
deriving DecidableEq, Repr

namespace Search

def start (count : Nat) : Search :=
  ⟨Array.replicate count .unseen, [], 0, [], []⟩

def enter (search : Search) (node : Nat) : Search :=
  { search with
    marks := search.marks.setIfInBounds node (.pending search.next search.next)
    stack := node :: search.stack
    next := search.next + 1
    work := (node, 0) :: search.work }

def lower (search : Search) (node bound : Nat) : Option Search :=
  match search.marks[node]? with
  | some (.pending index lowlink) =>
    some
      { search with
        marks := search.marks.setIfInBounds node (.pending index (min lowlink bound)) }
  | _ => none

def unstack (node : Nat) : List Nat → List Nat × List Nat
  | [] => ([], [])
  | member :: rest =>
    if member = node then ([member], rest)
    else
      let (members, below) := unstack node rest
      (member :: members, below)

def close (search : Search) (node : Nat) : Search :=
  let (members, below) := unstack node search.stack
  { search with
    marks := members.foldl (fun marks member => marks.setIfInBounds member .settled) search.marks
    stack := below
    components := members.mergeSort :: search.components }

def lowerTop (search : Search) (work : List (Nat × Nat)) (bound : Nat) : Option Search :=
  match work with
  | [] => some search
  | (node, _) :: _ => search.lower node bound

/-- Leaves a node whose targets have all been looked at; `work` is what is left to do. The node
before it takes in its lowlink. -/
def leave (search : Search) (node : Nat) (work : List (Nat × Nat)) : Option Search := do
  match ← search.marks[node]? with
  | .pending index lowlink =>
    let search ← search.lowerTop work lowlink
    let search := { search with work }
    return if index = lowlink then search.close node else search
  | _ => none

/-- Looks at one target of the node that is being searched, or leaves the node. No result stands
for a node that is out of range or not marked as it should be. -/
def step (edges : Edges) (search : Search) : Option Search := do
  match search.work with
  | [] => return search
  | (node, position) :: work =>
    let targets ← edges[node]?
    match targets[position]? with
    | none => search.leave node work
    | some target =>
      let advanced := (node, position + 1) :: work
      match ← search.marks[target]? with
      | .unseen => return { search with work := advanced }.enter target
      | .pending index _ => (search.lower node index).map ({ · with work := advanced })
      | .settled => return { search with work := advanced }

def run (edges : Edges) : Nat → Search → Option Search
  | 0, search => if search.work.isEmpty then some search else none
  | fuel + 1, search =>
    if search.work.isEmpty then some search else (search.step edges).bind (run edges fuel)

end Search

/-- The number of steps that a search can take: one for each target and one to leave each node. -/
def Edges.size (edges : Edges) : Nat :=
  edges.foldr (fun targets size => targets.length + 1 + size) 0

def Search.visit (edges : Edges) (search : Search) (node : Nat) : Option Search := do
  match ← search.marks[node]? with
  | .unseen => run edges edges.size (search.enter node)
  | _ => return search

/-- The strongly connected components, a component after every other one that it reads; none when
the search meets a node out of range. -/
def components? (edges : Edges) : Option (List (List Nat)) := do
  let search ← edges.nodes.foldlM (Search.visit edges) (Search.start edges.length)
  return search.components.reverse

def components (edges : Edges) : List (List Nat) :=
  (components? edges).getD []

end Provision.Graph
