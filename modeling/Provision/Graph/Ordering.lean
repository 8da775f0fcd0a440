import Provision.Bound.Node
import Provision.Graph.Components

/-!
# Order of declarations

Each declaration comes after those it reads, the earliest declared first wherever there is a
choice. Declarations on a cycle have no place, nor has anything that reads one. Outputs follow
everything else.

Places are given by Kahn's algorithm. A counter for each node tells how many of its targets have no
place yet; a node is ready when its counter comes down to zero.
-/

namespace Provision.Graph

/-- The position of the first declaration of a name. Outputs cannot be read. -/
def declarationOf (nodes : List Bound.Node) (name : String) : Option Nat :=
  nodes.findIdx? fun node => !node.isOutput && node.name == name

def dropRepeats : List Nat → List Nat
  | [] => []
  | node :: rest =>
    match rest with
    | [] => [node]
    | next :: _ => if node = next then dropRepeats rest else node :: dropRepeats rest

def dependencyEdges (nodes : List Bound.Node) : Edges :=
  nodes.map fun node => dropRepeats (node.dependencies.filterMap (declarationOf nodes))

structure Ordering where
  order : List Nat
  /-- Groups that read each other, or single declarations that read themselves. -/
  cycles : List (List Nat)
  /-- Declarations that read a cycle, each with the first member found. -/
  blocked : List (Nat × Nat)
deriving DecidableEq, Repr

def isCyclic (edges : Edges) : List Nat → Bool
  | [node] => (edges.targets node).contains node
  | _ => true

def cyclesAmong (edges : Edges) (components : List (List Nat)) : List (List Nat) :=
  (components.filter (isCyclic edges)).mergeSort fun left right => !right.lex left

def Edges.readers (edges : Edges) (node : Nat) : List Nat :=
  edges.nodes.flatMap fun reader => List.replicate ((edges.targets reader).count node) reader

structure Schedule where
  remaining : Array Nat
  ready : List Nat
  placed : List Nat
deriving DecidableEq, Repr

def insertNode (node : Nat) : List Nat → List Nat
  | [] => [node]
  | other :: rest =>
    if node < other then node :: other :: rest
    else if node = other then other :: rest
    else other :: insertNode node rest

namespace Schedule

def start (edges : Edges) (excluded : List Nat) : Schedule :=
  let remaining := (edges.map List.length).toArray
  let ready := edges.nodes.filter fun node =>
    remaining[node]? == some 0 && !excluded.contains node
  ⟨remaining, ready, []⟩

/-- Takes one target off the counter of a reader; no result stands for a counter at zero. -/
def release (excluded : List Nat) (schedule : Schedule) (reader : Nat) : Option Schedule :=
  match schedule.remaining[reader]? with
  | some (count + 1) =>
    some
      { schedule with
        remaining := schedule.remaining.setIfInBounds reader count
        ready :=
          if count = 0 ∧ reader ∉ excluded then insertNode reader schedule.ready
          else schedule.ready }
  | _ => none

def step (edges : Edges) (excluded : List Nat) (schedule : Schedule) : Option Schedule :=
  match schedule.ready with
  | [] => some schedule
  | node :: ready =>
    (edges.readers node).foldlM (release excluded)
      { schedule with ready, placed := node :: schedule.placed }

def run (edges : Edges) (excluded : List Nat) : Nat → Schedule → Option Schedule
  | 0, schedule => if schedule.ready.isEmpty then some schedule else none
  | fuel + 1, schedule =>
    if schedule.ready.isEmpty then some schedule
    else (schedule.step edges excluded).bind (run edges excluded fuel)

end Schedule

def schedule? (edges : Edges) (excluded : List Nat) : Option (List Nat) := do
  let final ← Schedule.run edges excluded edges.length (Schedule.start edges excluded)
  return final.placed.reverse

/-- The first excluded node that a depth-first walk meets. It walks from the pending nodes, the
next one first, past those that it has seen. -/
def findExcluded (edges : Edges) (excluded : List Nat) : Nat → List Nat → List Nat → Option Nat
  | 0, _, _ => none
  | _ + 1, _, [] => none
  | fuel + 1, seen, current :: pending =>
    if seen.contains current then findExcluded edges excluded fuel seen pending
    else
      match (edges.targets current).find? excluded.contains with
      | some member => some member
      | none =>
        findExcluded edges excluded fuel (current :: seen) (edges.targets current ++ pending)

def blockingMember (edges : Edges) (excluded : List Nat) (node : Nat) : Option Nat :=
  findExcluded edges excluded edges.size [] [node]

def blockedNodes (edges : Edges) (excluded placed : List Nat) : List (Nat × Nat) :=
  edges.nodes.filterMap fun node =>
    if node ∈ placed ∨ node ∈ excluded then none
    else (blockingMember edges excluded node).map (node, ·)

/-- Orders a graph in which the nodes marked as outputs are written last. No result stands for a
node that is out of range or a counter that is wrong. -/
def orderEdges? (edges : Edges) (isOutput : Nat → Bool) : Option Ordering := do
  let cycles := cyclesAmong edges (← components? edges)
  let placed ← schedule? edges cycles.flatten
  return {
    order := placed.filter (!isOutput ·) ++ placed.filter isOutput
    cycles
    blocked := blockedNodes edges cycles.flatten placed }

def isOutputAt (nodes : List Bound.Node) (position : Nat) : Bool :=
  nodes[position]?.any (·.isOutput)

def order? (nodes : List Bound.Node) : Option Ordering :=
  orderEdges? (dependencyEdges nodes) (isOutputAt nodes)

def order (nodes : List Bound.Node) : Ordering :=
  (order? nodes).getD ⟨[], [], []⟩

end Provision.Graph
