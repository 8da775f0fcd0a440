import Mathlib.Logic.Relation
import Provision.Graph.Components

/-!
# Components in the order they are found

`Found` says how a list of components comes about: a component is added once all that its members
read is in it or in one added before. Such a list holds whole strongly connected components, each
after those that it reads.
-/

namespace Provision.Graph

def Edges.Reads (edges : Edges) (source target : Nat) : Prop := target ∈ edges.targets source

def Edges.Reaches (edges : Edges) : Nat → Nat → Prop := Relation.ReflTransGen edges.Reads

def Edges.InRange (edges : Edges) : Prop :=
  ∀ targets ∈ edges, ∀ target ∈ targets, target < edges.length

instance (edges : Edges) : Decidable edges.InRange :=
  inferInstanceAs (Decidable (∀ targets ∈ edges, ∀ target ∈ targets, target < edges.length))

theorem Edges.InRange.lt_length {edges : Edges} (h : edges.InRange) {node target : Nat}
    (hread : edges.Reads node target) : target < edges.length := by
  rw [Edges.Reads, Edges.targets, List.getD_eq_getElem?_getD] at hread
  cases htargets : edges[node]? with
  | none => simp [htargets] at hread
  | some targets =>
    rw [htargets] at hread
    exact h targets (List.mem_of_getElem? htargets) target hread

/-- Components as they are found, latest first: each is sorted, its members reach each other, and
what they read is in it or was found before. -/
inductive Found (edges : Edges) : List (List Nat) → Prop
  | nil : Found edges []
  | cons {component : List Nat} {older : List (List Nat)} (hnonempty : component ≠ [])
      (hsorted : component.Pairwise (· < ·))
      (hreaches : ∀ source ∈ component, ∀ target ∈ component, edges.Reaches source target)
      (hreads : ∀ source ∈ component, ∀ target ∈ edges.targets source,
        target ∈ component ∨ target ∈ older.flatten)
      (hnew : ∀ node ∈ component, node ∉ older.flatten) (h : Found edges older) :
      Found edges (component :: older)

namespace Found

variable {edges : Edges} {components : List (List Nat)} (h : Found edges components)

include h

theorem mem_of_reads {node target : Nat} (hnode : node ∈ components.flatten)
    (hread : edges.Reads node target) : target ∈ components.flatten := by
  induction h with
  | nil => simp at hnode
  | cons _ _ _ hreads _ _ ih =>
    rw [List.flatten_cons, List.mem_append] at hnode ⊢
    rcases hnode with hnode | hnode
    · exact hreads node hnode target hread
    · exact .inr (ih hnode)

theorem mem_of_reaches {node target : Nat} (hnode : node ∈ components.flatten)
    (hreaches : edges.Reaches node target) : target ∈ components.flatten := by
  induction hreaches with
  | refl => exact hnode
  | tail _ hread ih => exact h.mem_of_reads ih hread

theorem nonempty_and_sorted {component : List Nat} (hcomponent : component ∈ components) :
    component ≠ [] ∧ component.Pairwise (· < ·) := by
  induction h with
  | nil => simp at hcomponent
  | cons hnonempty hsorted _ _ _ _ ih =>
    rcases List.mem_cons.mp hcomponent with rfl | hcomponent
    · exact ⟨hnonempty, hsorted⟩
    · exact ih hcomponent

theorem nodup_flatten : components.flatten.Nodup := by
  induction h with
  | nil => simp
  | cons _ hsorted _ _ hnew _ ih =>
    rw [List.flatten_cons, List.nodup_append]
    refine ⟨hsorted.imp Nat.ne_of_lt, ih, ?_⟩
    rintro node hnode other hother rfl
    exact hnew node hnode hother

theorem reaches {component : List Nat} (hcomponent : component ∈ components) {source target : Nat}
    (hsource : source ∈ component) (htarget : target ∈ component) :
    edges.Reaches source target := by
  induction h with
  | nil => simp at hcomponent
  | cons _ _ hreaches _ _ _ ih =>
    rcases List.mem_cons.mp hcomponent with rfl | hcomponent
    · exact hreaches source hsource target htarget
    · exact ih hcomponent

theorem mem_of_reaches_both {component : List Nat} (hcomponent : component ∈ components)
    {source target : Nat} (hsource : source ∈ component) (hthere : edges.Reaches source target)
    (hback : edges.Reaches target source) : target ∈ component := by
  induction h with
  | nil => simp at hcomponent
  | @cons latest older hnonempty hsorted hreaches hreads hnew hfound ih =>
    rcases List.mem_cons.mp hcomponent with rfl | hcomponent
    · -- A walk that leaves the latest component cannot come back to it.
      have hall : Found edges (component :: older) :=
        .cons hnonempty hsorted hreaches hreads hnew hfound
      have hmem := hall.mem_of_reaches (by simp [hsource]) hthere
      rw [List.flatten_cons, List.mem_append] at hmem
      refine hmem.resolve_right fun holder => ?_
      exact hnew source hsource (hfound.mem_of_reaches holder hback)
    · exact ih hcomponent

theorem pairwise_not_reads : components.Pairwise fun later earlier =>
    ∀ source ∈ earlier, ∀ target ∈ later, ¬ edges.Reads source target := by
  induction h with
  | nil => exact .nil
  | cons _ _ _ _ hnew hfound ih =>
    refine List.pairwise_cons.mpr ⟨?_, ih⟩
    intro earlier hearlier source hsource target htarget hread
    exact hnew target htarget
      (hfound.mem_of_reads (List.mem_flatten.mpr ⟨earlier, hearlier, hsource⟩) hread)

end Found

end Provision.Graph
