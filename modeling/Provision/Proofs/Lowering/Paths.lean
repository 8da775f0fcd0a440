import Provision.Proofs.Lowering.Inlining

/-!
# Paths that are read

Lowering moves accesses around and replaces repeated ones by parameters, but a lowered expression
reads the same paths as the expression that it was made from.
-/

namespace Provision

namespace Bound.Expr

def ReadsPath (path : Path) (whole : Expr) : Prop := ∃ ty, .access path ty ∈ whole.subexprs

variable {path : Path} {whole : Expr}

theorem readsPath_iff :
    whole.ReadsPath path ↔
      (∃ ty, whole = .access path ty) ∨ ∃ child ∈ whole.children, child.ReadsPath path := by
  constructor
  · rintro ⟨ty, hty⟩
    rcases mem_subexprs.mp hty with heq | ⟨child, hchild, hty⟩
    · exact .inl ⟨ty, heq.symm⟩
    · exact .inr ⟨child, hchild, ty, hty⟩
  · rintro (⟨ty, rfl⟩ | ⟨child, hchild, ty, hty⟩)
    · exact ⟨ty, self_mem_subexprs _⟩
    · exact ⟨ty, mem_subexprs_of_child hchild hty⟩

theorem ReadsPath.of_mem {part : Expr} (h : part.ReadsPath path) (hpart : part ∈ whole.subexprs) :
    whole.ReadsPath path := by
  obtain ⟨ty, hty⟩ := h
  exact ⟨ty, mem_subexprs_trans hty hpart⟩

theorem readsPath_copy {copy : Expr} {f : Expr → Expr}
    (htop : (∃ ty, copy = .access path ty) ↔ ∃ ty, whole = .access path ty)
    (hchildren : copy.children = whole.children.map f)
    (h : ∀ child ∈ whole.children, (f child).ReadsPath path ↔ child.ReadsPath path) :
    copy.ReadsPath path ↔ whole.ReadsPath path := by
  rw [readsPath_iff, readsPath_iff, htop, hchildren]
  refine or_congr Iff.rfl ?_
  constructor
  · rintro ⟨part, hpart, hreads⟩
    obtain ⟨child, hchild, rfl⟩ := List.mem_map.mp hpart
    exact ⟨child, hchild, (h child hchild).mp hreads⟩
  · rintro ⟨child, hchild, hreads⟩
    exact ⟨f child, List.mem_map_of_mem hchild, (h child hchild).mpr hreads⟩

theorem readsPath_unsigned : whole.unsigned.ReadsPath path ↔ whole.ReadsPath path := by
  induction whole with
  | step whole ih =>
    refine readsPath_copy ?_ (children_unsigned whole) ih
    rw [unsigned_eq]
    cases whole <;> simp [mapChildren, unsignTop]

private theorem mem_accessRoots {root : String} :
    root ∈ whole.accessRoots ↔
      ∃ path, whole.ReadsPath path ∧ path.kind.isInput = false ∧ path.root = root := by
  constructor
  · intro hroot
    induction whole with
    | step whole ih =>
      rcases accessRoots_cases hroot with ⟨path, ty, rfl, hkind⟩ | ⟨child, hchild, hroot⟩
      · exact ⟨path, ⟨ty, self_mem_subexprs _⟩, hkind⟩
      · obtain ⟨path, hreads, hkind⟩ := ih child hchild hroot
        exact ⟨path, readsPath_iff.mpr (.inr ⟨child, hchild, hreads⟩), hkind⟩
  · rintro ⟨path, ⟨ty, hty⟩, hkind, rfl⟩
    exact root_mem_accessRoots hty hkind

end Bound.Expr

theorem Bound.Node.mem_dependencies {node : Bound.Node} {root : String} :
    root ∈ node.dependencies ↔ ∃ path, (∃ expr ∈ node.expressions, expr.ReadsPath path) ∧
      path.kind.isInput = false ∧ path.root = root := by
  simp only [dependencies, List.mem_eraseDups, List.mem_flatMap,
    Bound.Expr.mem_accessRoots]
  constructor
  · rintro ⟨expr, hexpr, path, hpath, hroot⟩
    exact ⟨path, ⟨expr, hexpr, hpath⟩, hroot⟩
  · rintro ⟨path, ⟨expr, hexpr, hpath⟩, hroot⟩
    exact ⟨expr, hexpr, path, hpath, hroot⟩

namespace Lowering

variable {path : Bound.Path} {expr : Bound.Expr}

theorem substitute_forms (captures : List Bound.Expr) (params : List String) (expr : Bound.Expr) :
    (∃ param, ∃ capture ∈ captures, capture.unsigned = expr.unsigned ∧
      substitute captures params expr = .placeholder param expr.ty.withoutEventual) ∨
    substitute captures params expr =
      (expr.mapChildren (substitute captures params)).withTy expr.ty.withoutEventual ∨
    substitute captures params expr = expr := by
  cases hsource : expr.isSource with
  | true =>
    rcases substitute_cases captures params hsource with
      ⟨_, param, capture, hcapture, -, hsame, hplaceholder⟩ | hkept
    · exact .inl ⟨param, capture, List.mem_of_getElem? hcapture, hsame, hplaceholder⟩
    · exact .inr (.inl hkept)
  | false =>
    cases expr with
    | apply args names body ty => exact .inr (.inr rfl)
    | placeholder name ty => exact .inr (.inl rfl)
    | _ => simp [Bound.Expr.isSource] at hsource

private theorem readsPath_of_substitute {captures : List Bound.Expr} {params : List String}
    (h : (substitute captures params expr).ReadsPath path) : expr.ReadsPath path := by
  induction expr with
  | step expr ih =>
    rcases substitute_forms captures params expr with
      ⟨_, _, -, -, hplaceholder⟩ | hkept | hsame
    · rw [hplaceholder, Bound.Expr.readsPath_iff] at h
      simp [Bound.Expr.children] at h
    · rw [hkept] at h
      rcases Bound.Expr.readsPath_iff.mp h with ⟨ty, htop⟩ | ⟨part, hpart, hreads⟩
      · cases expr with
        | access own ty =>
          obtain ⟨rfl, -⟩ := Bound.Expr.access.inj htop
          exact ⟨ty, Bound.Expr.self_mem_subexprs _⟩
        | _ => contradiction
      · rw [Bound.Expr.children_withTy, Bound.Expr.children_mapChildren] at hpart
        obtain ⟨child, hchild, rfl⟩ := List.mem_map.mp hpart
        exact Bound.Expr.readsPath_iff.mpr (.inr ⟨child, hchild, ih child hchild hreads⟩)
    · rwa [hsame] at h

private theorem readsPath_substitute {captures : List Bound.Expr} (params : List String)
    (h : expr.ReadsPath path) :
    (substitute captures params expr).ReadsPath path ∨
      ∃ capture ∈ captures, capture.ReadsPath path := by
  induction expr with
  | step expr ih =>
    rcases substitute_forms captures params expr with
      ⟨param, capture, hcapture, hsame, -⟩ | hkept | hsame
    · have hreads : capture.ReadsPath path := by
        rw [← Bound.Expr.readsPath_unsigned, hsame, Bound.Expr.readsPath_unsigned]
        exact h
      exact .inr ⟨capture, hcapture, hreads⟩
    · rw [hkept]
      rcases Bound.Expr.readsPath_iff.mp h with ⟨ty, rfl⟩ | ⟨child, hchild, hreads⟩
      · exact .inl ⟨_, Bound.Expr.self_mem_subexprs _⟩
      · refine (ih child hchild hreads).imp (fun hreads => ?_) id
        refine Bound.Expr.readsPath_iff.mpr (.inr ⟨_, ?_, hreads⟩)
        rw [Bound.Expr.children_withTy, Bound.Expr.children_mapChildren]
        exact List.mem_map_of_mem hchild
    · exact .inl (hsame.symm ▸ h)

private theorem readsPath_lift : (lift expr).ReadsPath path ↔ expr.ReadsPath path := by
  have hchildren : (lift expr).ReadsPath path ↔
      ∃ part ∈ collect [] expr ++ [substitute (collect [] expr)
        (parameterNames expr.referencedRoots (collect [] expr)) expr], part.ReadsPath path := by
    rw [Bound.Expr.readsPath_iff]
    simp [lift, Bound.Expr.children]
  rw [hchildren]
  constructor
  · rintro ⟨part, hpart, hreads⟩
    rcases List.mem_append.mp hpart with hcapture | hbody
    · exact hreads.of_mem (captured_of_mem_collect hcapture).mem_subexprs
    · rw [List.mem_singleton.mp hbody] at hreads
      exact readsPath_of_substitute hreads
  · intro hreads
    rcases readsPath_substitute _ hreads with hbody | ⟨capture, hcapture, hreads⟩
    · exact ⟨_, List.mem_append_right _ (List.mem_singleton.mpr rfl), hbody⟩
    · exact ⟨capture, List.mem_append_left _ hcapture, hreads⟩

theorem readsPath_lowerInput : (lowerInput expr).ReadsPath path ↔ expr.ReadsPath path := by
  induction expr with
  | step expr ih =>
    rcases lowerInput_cases expr with ⟨-, -, heq⟩ | ⟨-, heq⟩ | heq <;> rw [heq]
    · exact readsPath_lift
    · refine Bound.Expr.readsPath_copy ?_ Bound.Expr.children_mapChildren ih
      cases expr <;> simp [Bound.Expr.mapChildren]

end Lowering

end Provision
