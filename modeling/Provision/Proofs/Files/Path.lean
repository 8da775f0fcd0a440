import Provision.Proofs.Files

/-!
# Places of paths

In a file tree the place of a path is found segment by segment. A path beneath a directory leads to
the place of the directory and on from there. The name of a file without its ending is a single step
of such a path, unless all that is left of it are dots.
-/

namespace Provision.Files

theorem not_mem_of_mem_splitOn {α : Type} [BEq α] [LawfulBEq α] {separator : α}
    {items part : List α} (h : part ∈ items.splitOn separator) : separator ∉ part := by
  induction items generalizing part with
  | nil => simp_all [List.splitOn_nil]
  | cons item rest ih =>
    rw [List.splitOn_cons_eq_if_modifyHead] at h
    split at h
    · rcases List.mem_cons.mp h with rfl | hmem
      · exact List.not_mem_nil
      · exact ih hmem
    · next hne =>
      cases hsplit : rest.splitOn separator with
      | nil => exact absurd hsplit (List.splitOn_ne_nil _ _)
      | cons first others =>
        rw [hsplit, List.modifyHead_cons] at h
        rcases List.mem_cons.mp h with rfl | hmem
        · have hfirst := ih (hsplit ▸ List.mem_cons_self)
          exact List.not_mem_cons_of_ne_of_not_mem (fun heq => hne (by simp [heq])) hfirst
        · exact ih (hsplit ▸ List.mem_cons_of_mem _ hmem)

theorem segments_slash (root path : String) :
    segments (root ++ "/" ++ path) = segments root ++ segments path := by
  have hlist : (root ++ "/" ++ path).toList = root.toList ++ '/' :: path.toList := by simp
  rw [segments, hlist, List.splitOn_append_cons_self, List.map_append]
  rfl

structure IsName (name : String) : Prop where
  ne_empty : name ≠ ""
  no_slash : '/' ∉ name.toList
  ne_dots : name ≠ "." ∧ name ≠ ".."

theorem isAbsolute_of_no_slash {path : String} (h : '/' ∉ path.toList) :
    isAbsolute path = false := by
  rw [isAbsolute, beq_eq_false_iff_ne]
  exact fun hhead => h (List.mem_of_head? hhead)

namespace Tree

theorem resolve_append (place first second : List String) :
    resolve place (first ++ second) = resolve (resolve place first) second := by
  fun_induction resolve place first <;> simp_all [resolve]

theorem place_slash (root path : String) :
    place (root ++ "/" ++ path) = resolve (place root) (segments path) := by
  rw [place, segments_slash, resolve_append, place]

theorem place_join {root path : String} (h : isAbsolute path = false) :
    place (join root path) = resolve (place root) (segments path) := by
  rw [join]
  split
  · next hpath => simp [isAbsolute, hpath] at h
  · next hroot _ =>
    obtain rfl : root = "" := String.toList_eq_nil_iff.mp hroot
    rfl
  · split
    · next hlast =>
      -- The root ends in a slash, and the empty segment after it counts for nothing.
      obtain ⟨front, hfront⟩ := List.getLast?_eq_some_iff.mp (eq_of_beq hlast)
      obtain rfl : root = String.ofList front ++ "/" :=
        String.toList_injective (by simp [hfront])
      have hroot := place_slash (String.ofList front) ""
      rw [String.append_empty] at hroot
      rw [place_slash, hroot]
      rfl
    · exact place_slash root path

end Tree

theorem IsName.resolve_segments {name : String} (h : IsName name) (place : List String) :
    Tree.resolve place (segments name) = place ++ [name] := by
  rw [segments, List.splitOn_eq_singleton h.no_slash]
  simp [Tree.resolve, h.ne_empty, h.ne_dots]

private theorem map_fst_segmentEnds (start : Nat) (segments : List String) :
    (segmentEnds start segments).map Prod.fst = segments := by
  induction segments generalizing start with
  | nil => rfl
  | cons segment rest ih => rw [segmentEnds, List.map_cons, ih]

theorem mem_segments_of_mem_parts {path : String} {part : String × Nat} (h : part ∈ parts path) :
    part.1 ∈ segments path ∧ part.1 ≠ "" := by
  have hsegments := map_fst_segmentEnds 0 (segments path)
  rw [parts] at h
  split at h
  · contradiction
  · next first rest hends =>
    rw [hends, List.map_cons] at hsegments
    rw [← hsegments, List.mem_cons]
    rcases List.mem_append.mp h with hfirst | hrest
    · split at hfirst
      · contradiction
      · next hne =>
        obtain rfl := List.mem_singleton.mp hfirst
        exact ⟨.inl rfl, by simpa using hne⟩
    · obtain ⟨hmem, hpart⟩ := List.mem_filter.mp hrest
      simp only [Bool.and_eq_true, bne_iff_ne] at hpart
      exact ⟨.inr (List.mem_map_of_mem hmem), hpart.1⟩

private theorem no_slash_of_mem_segments {path segment : String} (h : segment ∈ segments path) :
    '/' ∉ segment.toList := by
  obtain ⟨chars, hchars, rfl⟩ := List.mem_map.mp h
  rw [String.toList_ofList]
  exact not_mem_of_mem_splitOn hchars

private theorem stem_proper {name : String} (hne : name ≠ "") (hslash : '/' ∉ name.toList) :
    stem name ≠ "" ∧ '/' ∉ (stem name).toList := by
  rw [stem]
  split
  · exact ⟨hne, hslash⟩
  · exact ⟨hne, hslash⟩
  · next dot before hbefore hdropped =>
    refine ⟨by simpa using hbefore, fun hmem => hslash ?_⟩
    have hback : '/' ∈ name.toList.reverse.dropWhile (· != '.') := by
      rw [hdropped]
      exact List.mem_cons_of_mem _ (by simpa using hmem)
    exact List.mem_reverse.mp ((List.dropWhile_suffix _).subset hback)

theorem stem_fileName {path name : String} (h : fileName? path = some name) :
    stem name ≠ "" ∧ '/' ∉ (stem name).toList := by
  rw [fileName?] at h
  split at h
  · next part stop hlast =>
    obtain ⟨hmem, hne⟩ := mem_segments_of_mem_parts (List.mem_of_getLast? hlast)
    split at h
    · contradiction
    · obtain rfl := Option.some.inj h
      exact stem_proper hne (no_slash_of_mem_segments hmem)
  · contradiction

end Provision.Files
