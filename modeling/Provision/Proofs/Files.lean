import Provision.Files.Tree
import Provision.Proofs.Lookup

/-!
# Files that are written

A view of a file system says which text stands at which place, and which place a path leads to.
Seen through a view, writing a file does no more than to set the text at its place. File trees have
such a view.
-/

namespace Provision.Files

variable {contents : String}

section

variable {Place : Type} [DecidableEq Place]

def setText (text : Place → Option String) (place : Place) (contents : String) :
    Place → Option String :=
  fun other => if other = place then some contents else text other

def setTexts (text : Place → Option String) (writes : List (Place × String)) :
    Place → Option String :=
  writes.foldl (fun text write => setText text write.1 write.2) text

def Agree (writes : List (Place × String)) : Prop :=
  ∀ first ∈ writes, ∀ second ∈ writes, first.1 = second.1 → first.2 = second.2

instance (writes : List (Place × String)) : Decidable (Agree writes) :=
  inferInstanceAs (Decidable (∀ first ∈ writes, ∀ second ∈ writes,
    first.1 = second.1 → first.2 = second.2))

variable {text : Place → Option String} {writes : List (Place × String)}

theorem setText_of_eq {place : Place} (h : text place = some contents) :
    setText text place contents = text := by
  funext other
  by_cases hother : other = place
  · rw [setText, if_pos hother, hother, h]
  · rw [setText, if_neg hother]

theorem setTexts_append (first second : List (Place × String)) :
    setTexts text (first ++ second) = setTexts (setTexts text first) second :=
  List.foldl_append

theorem setTexts_of_untouched {place : Place} (h : ∀ write ∈ writes, write.1 ≠ place) :
    setTexts text writes place = text place := by
  induction writes generalizing text with
  | nil => rfl
  | cons write rest ih =>
    rw [setTexts, List.foldl_cons, ← setTexts,
      ih fun other hother => h other (List.mem_cons_of_mem _ hother)]
    exact if_neg (h write List.mem_cons_self).symm

theorem Agree.setTexts_of_mem (h : Agree writes) {write : Place × String}
    (hwrite : write ∈ writes) : setTexts text writes write.1 = some write.2 := by
  induction writes generalizing text with
  | nil => contradiction
  | cons first rest ih =>
    rw [setTexts, List.foldl_cons, ← setTexts]
    have hrest : Agree rest := fun other hother another hanother =>
      h other (List.mem_cons_of_mem _ hother) another (List.mem_cons_of_mem _ hanother)
    by_cases hmem : write ∈ rest
    · exact ih hrest hmem
    · obtain rfl := (List.mem_cons.mp hwrite).resolve_right hmem
      by_cases hlater : ∃ later ∈ rest, later.1 = write.1
      · -- The place is written again, with a text that can only be the same.
        obtain ⟨later, hlater, hplace⟩ := hlater
        have hsame := h later (List.mem_cons_of_mem _ hlater) write hwrite hplace
        exact absurd (Prod.ext hplace hsame ▸ hlater) hmem
      · rw [setTexts_of_untouched fun later hrest hplace => hlater ⟨later, hrest, hplace⟩]
        exact if_pos rfl

theorem Agree.setTexts_eq (h : Agree writes) {others : List (Place × String)}
    (hothers : ∀ write, write ∈ others ↔ write ∈ writes) :
    setTexts text others = setTexts text writes := by
  have hagree : Agree others := fun first hfirst second hsecond =>
    h first ((hothers first).mp hfirst) second ((hothers second).mp hsecond)
  funext place
  by_cases hwrite : ∃ write ∈ writes, write.1 = place
  · obtain ⟨write, hmem, rfl⟩ := hwrite
    rw [h.setTexts_of_mem hmem, hagree.setTexts_of_mem ((hothers write).mpr hmem)]
  · rw [setTexts_of_untouched fun write hmem hplace => hwrite ⟨write, hmem, hplace⟩,
      setTexts_of_untouched fun write hmem hplace =>
        hwrite ⟨write, (hothers write).mp hmem, hplace⟩]

end

theorem run_bind_eq {σ α β : Type} (action : StateM σ α) (rest : α → StateM σ β) (files : σ) :
    (action >>= rest).run files = (rest (action.run files).1).run (action.run files).2 := rfl

/-- What the operations of a file system do, said in terms of the texts at places. -/
structure View {σ : Type} (system : FileSystem (StateM σ)) (Place : Type) [DecidableEq Place] where
  text : σ → Place → Option String
  place : String → Place
  reachable : σ → String → Bool
  run_read_eq : ∀ path files, (system.read path).run files =
    (if reachable files path then text files (place path) else none, files)
  text_makeDirectories : ∀ path files,
    text ((system.makeDirectories path).run files).2 = text files
  reachable_makeDirectories : ∀ path files other, reachable files other = true →
    reachable ((system.makeDirectories path).run files).2 other = true
  text_put : ∀ path contents files, ((system.put path contents).run files).1 = .ok () →
    text ((system.put path contents).run files).2 = setText (text files) (place path) contents
  reachable_put : ∀ path contents files other, reachable files other = true →
    reachable ((system.put path contents).run files).2 other = true

variable {path : String}

namespace View

variable {σ : Type} {system : FileSystem (StateM σ)} {Place : Type} [DecidableEq Place]
  (view : View system Place)

def read (files : σ) (path : String) : Option String :=
  if view.reachable files path then view.text files (view.place path) else none

theorem run_read (path : String) (files : σ) :
    (system.read path).run files = (view.read files path, files) := view.run_read_eq path files

/-- The files after some writes, of which all went well: no path has become unreachable. -/
structure Written (writes : List (Place × String)) (before after : σ) : Prop where
  text_eq : view.text after = setTexts (view.text before) writes
  reachable : ∀ path, view.reachable before path = true → view.reachable after path = true

def writes (directory : String) (files : List GeneratedFile) : List (Place × String) :=
  files.map fun file => (view.place (join directory file.path), file.contents)

variable {view}

theorem Written.refl (files : σ) : view.Written [] files files := ⟨rfl, fun _ h => h⟩

theorem Written.append {first second : List (Place × String)} {before between after : σ}
    (hfirst : view.Written first before between) (hsecond : view.Written second between after) :
    view.Written (first ++ second) before after where
  text_eq := by rw [hsecond.text_eq, hfirst.text_eq, setTexts_append]
  reachable path h := hsecond.reachable path (hfirst.reachable path h)

variable (view)

private theorem text_of_read {files : σ} (h : view.read files path = some contents) :
    view.text files (view.place path) = some contents := by
  rw [read] at h
  split at h
  · exact h
  · contradiction

theorem written_writeAtomic {changed : Bool} {before after : σ}
    (h : (writeAtomic system path contents).run before = (.ok changed, after)) :
    view.Written [(view.place path, contents)] before after := by
  simp only [writeAtomic, run_bind_eq, view.run_read] at h
  by_cases hread : view.read before path = some contents
  · -- The text is there already.
    simp only [hread, beq_self_eq_true, ↓reduceIte] at h
    obtain rfl : before = after := congrArg Prod.snd h
    exact ⟨(setText_of_eq (view.text_of_read hread)).symm, fun _ hpath => hpath⟩
  · have htext := view.text_makeDirectories (directoryOf path) before
    have hreach := view.reachable_makeDirectories (directoryOf path) before
    simp only [beq_false_of_ne hread, Bool.false_eq_true, ↓reduceIte, run_bind_eq] at h
    generalize (system.makeDirectories (directoryOf path)).run before = made at h htext hreach
    obtain ⟨_ | _, between⟩ := made
    · cases h
    · have htext' := view.text_put path contents between
      have hreach' := view.reachable_put path contents between
      simp only [↓reduceIte, run_bind_eq] at h htext hreach
      generalize (system.put path contents).run between = result at h htext' hreach'
      obtain ⟨fault | ⟨⟨⟩⟩, last⟩ := result
      · cases h
      · obtain rfl : last = after := congrArg Prod.snd h
        refine ⟨(htext' rfl).trans (congrArg (setText · _ _) htext), fun other hother => ?_⟩
        exact hreach' other (hreach other hother)

end View

variable {tree : Tree} {found : List String}

namespace Tree

def resolve (place : List String) : List String → List String
  | [] => place
  | segment :: rest =>
    if segment = "" ∨ segment = "." then resolve place rest
    else if segment = ".." then resolve place.dropLast rest
    else resolve (place ++ [segment]) rest

def place (path : String) : List String := resolve [] (segments path)

private theorem walk_eq_resolve {place : List String} {segments : List String}
    (h : tree.walk place segments = some found) : found = resolve place segments := by
  fun_induction walk tree place segments <;> simp_all [resolve]

private theorem walk_mono {later : Tree}
    (hdirectory : ∀ place, tree.isDirectory place = true → later.isDirectory place = true)
    {place : List String} {segments : List String} (h : tree.walk place segments = some found) :
    later.walk place segments = some found := by
  fun_induction walk tree place segments <;> simp_all [walk]

theorem locate_mono {later : Tree}
    (hdirectory : ∀ place, tree.isDirectory place = true → later.isDirectory place = true)
    (h : (tree.locate path).isSome = true) : (later.locate path).isSome = true := by
  obtain ⟨found, hfound⟩ := Option.isSome_iff_exists.mp h
  rw [locate] at hfound ⊢
  split at hfound
  · contradiction
  · next hproper =>
    rw [if_neg hproper, walk_mono hdirectory hfound]
    rfl

def text (tree : Tree) (place : List String) : Option String := tree.files.lookup place

private theorem makeAlong_keeps (tree : Tree) (place : List String) (segments : List String) :
    (tree.makeAlong place segments).2.files = tree.files ∧
      ∀ other, tree.isDirectory other = true →
        (tree.makeAlong place segments).2.isDirectory other = true := by
  fun_induction makeAlong tree place segments <;> simp_all [isDirectory]

theorem makeDirectories_keeps (tree : Tree) (path : String) :
    (tree.makeDirectories path).2.text = tree.text ∧
      ∀ place, tree.isDirectory place = true →
        (tree.makeDirectories path).2.isDirectory place = true := by
  rw [makeDirectories]
  split
  · exact ⟨rfl, fun _ h => h⟩
  · obtain ⟨hfiles, hdirectories⟩ := makeAlong_keeps tree [] (segments path)
    exact ⟨by funext place; rw [text, hfiles, text], hdirectories⟩

private theorem isDirectory_put (tree : Tree) (path contents : String) (place : List String) :
    (tree.put path contents).2.isDirectory place = tree.isDirectory place := by
  rw [put]
  split
  · split <;> rfl
  · rfl

theorem locate_eq_place (h : tree.locate path = some found) : found = place path := by
  rw [locate] at h
  split at h
  · contradiction
  · exact walk_eq_resolve h

private theorem text_set (tree : Tree) (place : List String) (contents : String) :
    (tree.set place contents).text = setText tree.text place contents := by
  funext other
  rw [text, set, setText, List.lookup_cons]
  by_cases hother : other = place
  · rw [if_pos hother, hother, beq_self_eq_true]
  · rw [if_neg hother, beq_false_of_ne hother]
    exact lookup_filter_ne tree.files hother

theorem text_put (h : (tree.put path contents).1 = .ok ()) :
    (tree.put path contents).2.text = setText tree.text (place path) contents := by
  rw [put] at h ⊢
  cases hplace : tree.locate path with
  | none => simp [hplace] at h
  | some place =>
    simp only [hplace] at h ⊢
    split
    · next hdirectory => simp [hdirectory] at h
    · rw [text_set, locate_eq_place hplace]

theorem read_eq (tree : Tree) (path : String) :
    tree.read path =
      if (tree.locate path).isSome then tree.text (place path) else none := by
  rw [read]
  cases hplace : tree.locate path with
  | none => rfl
  | some place =>
    rw [← locate_eq_place hplace]
    rfl

/-- A path leads where its segments do, once the directories on the way are there. -/
def view : View system (List String) where
  text := text
  place := place
  reachable tree path := (tree.locate path).isSome
  run_read_eq path tree := congrArg (·, tree) (tree.read_eq path)
  text_makeDirectories path tree := (makeDirectories_keeps tree path).1
  reachable_makeDirectories path tree _ h := locate_mono (makeDirectories_keeps tree path).2 h
  text_put _ _ _ h := text_put h
  reachable_put path contents tree _ h :=
    locate_mono (fun place hplace => (isDirectory_put tree path contents place).trans hplace) h

end Tree

end Provision.Files
