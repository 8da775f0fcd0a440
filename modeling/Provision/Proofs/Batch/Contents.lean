import Provision.Proofs.Batch.Items
import Provision.Proofs.Files.Path

/-!
# The files that a batch leaves

The programs of a template go to a directory that is named for the template's file alone, so two
templates may write to the same places. Where they never write different texts to one place, a batch
leaves the files that its templates give one after the other, however many workers it has and
whatever order they take their turns in. Where they do, a program of one of them is lost. In a file
tree templates of different names write to different places.
-/

namespace Provision.Batch

open Files (View)

section

variable {σ Place : Type} [DecidableEq Place] {system : Files.FileSystem (StateM σ)}
  (view : View system Place) (job : Job)

def generated (files : σ) (template : String) : List (Place × String) :=
  match job.converted template (view.read files template) with
  | .ok conversion => view.writes (outDirOf job.outDir template) conversion.files
  | .error _ => []

def Write.placed (write : Write σ) : Place × String := (view.place write.path, write.contents)

theorem visit_result (visit : Visit σ) :
    visit.result system job =
      (job.converted visit.template (view.read visit.before visit.template), visit.before) := by
  rw [Visit.result, run_convert, view.run_read]

theorem Write.written {write : Write σ} (h : ∀ fault, write.outcome system ≠ .error fault) :
    view.Written [write.placed view] write.before (write.result system).2 := by
  cases hresult : write.result system with
  | mk result after =>
    cases result with
    | error fault => exact absurd (by rw [Write.outcome, hresult]; rfl) (h fault)
    | ok changed => exact view.written_writeAtomic hresult

variable {view job} in
theorem Write.Puts.placed_eq {write : Write σ} {template : String} {file : GeneratedFile}
    (h : write.Puts job template file) : write.placed view =
      (view.place (Files.join (outDirOf job.outDir template) file.path), file.contents) := by
  rw [Write.placed, h.path_eq, h.contents_eq]

/-! ## Batches -/

/-- The programs of a batch neither overwrite one of its templates nor bring one into reach. -/
structure Undisturbed (files : σ) : Prop where
  untouched : ∀ template ∈ job.templates, ∀ other ∈ job.templates,
    ∀ write ∈ generated view job files other, write.1 ≠ view.place template
  reachable : ∀ template ∈ job.templates,
    view.reachable files template = true ∨ view.text files (view.place template) = none

/-- The writes of a batch when its templates are converted one after the other. -/
def Job.writes (files : σ) : List (Place × String) :=
  job.templates.flatMap (generated view job files)

variable {view job} {files : σ}

private theorem mem_writes_of_converted {template : String} (htemplate : template ∈ job.templates)
    {conversion : Conversion}
    (hconverted : job.converted template (view.read files template) = .ok conversion)
    {file : GeneratedFile} (hfile : file ∈ conversion.files) {write : Write σ}
    (hputs : write.Puts job template file) : write.placed view ∈ job.writes view files := by
  refine List.mem_flatMap.mpr ⟨template, htemplate, ?_⟩
  rw [generated, hconverted]
  exact List.mem_map.mpr ⟨file, hfile, hputs.placed_eq.symm⟩

theorem Undisturbed.read_eq (h : Undisturbed view job files) {writes : List (Place × String)}
    {now : σ} (hwritten : view.Written writes files now)
    (hwrites : ∀ write ∈ writes, write ∈ job.writes view files) {template : String}
    (htemplate : template ∈ job.templates) : view.read now template = view.read files template := by
  have htext : view.text now (view.place template) = view.text files (view.place template) := by
    rw [hwritten.text_eq]
    refine Files.setTexts_of_untouched fun write hwrite => ?_
    obtain ⟨other, hother, hmem⟩ := List.mem_flatMap.mp (hwrites write hwrite)
    exact h.untouched template htemplate other hother write hmem
  rw [View.read, View.read, htext]
  rcases h.reachable template htemplate with hreachable | hnone
  · rw [if_pos hreachable, if_pos (hwritten.reachable template hreachable)]
  · rw [hnone, ite_self, ite_self]

/-- As long as no write fails, the files change by writes of the batch only, and these leave the
templates alone. -/
theorem Undisturbed.history (h : Undisturbed view job files) {events : List (Event σ)} {now : σ}
    (hhistory : History system job files events now)
    (hstored : ∀ write ∈ writesOf events, ∀ fault, write.outcome system ≠ .error fault)
    (htemplates : ∀ visit ∈ visitsOf events, visit.template ∈ job.templates) :
    view.Written ((writesOf events).map (Write.placed view)) files now ∧
      (∀ write ∈ (writesOf events).map (Write.placed view), write ∈ job.writes view files) ∧
      ∀ visit ∈ visitsOf events, (visit.result system job).1 =
        job.converted visit.template (view.read files visit.template) := by
  induction hhistory with
  | nil => exact ⟨.refl files, by simp [writesOf], by simp [visitsOf]⟩
  | @visit past visit _ ih =>
    simp only [visitsOf_append, writesOf_append, List.forall_mem_append] at hstored htemplates
    obtain ⟨hwritten, hwrites, hresults⟩ := ih hstored.1 htemplates.1
    have htemplate := htemplates.2 visit (List.mem_singleton.mpr rfl)
    rw [writesOf_append, visitsOf_append, visit_result view job visit]
    refine ⟨?_, ?_, List.forall_mem_append.mpr ⟨hresults, fun other hother => ?_⟩⟩
    · simpa [writesOf] using hwritten
    · simpa [writesOf] using hwrites
    · obtain rfl := List.mem_singleton.mp hother
      rw [visit_result view job, h.read_eq hwritten hwrites htemplate]
  | @write past write _ hfounded ih =>
    simp only [visitsOf_append, writesOf_append, List.forall_mem_append] at hstored htemplates
    obtain ⟨hwritten, hwrites, hresults⟩ := ih hstored.1 htemplates.1
    obtain ⟨visit, hvisit, -, -, conversion, hresult, file, hfile, hputs⟩ := hfounded
    have hmem : write.placed view ∈ job.writes view files :=
      mem_writes_of_converted (htemplates.1 visit hvisit)
        ((hresults visit hvisit).symm.trans hresult) hfile hputs
    rw [writesOf_append, visitsOf_append, List.map_append]
    refine ⟨hwritten.append (Write.written view (hstored.2 write (List.mem_singleton.mpr rfl))),
      List.forall_mem_append.mpr ⟨hwrites, ?_⟩, by simpa [visitsOf] using hresults⟩
    exact fun other hother => List.mem_singleton.mp hother ▸ hmem

/-! ## Complete batches -/

section

variable (system job files) (schedule : List Nat)

abbrev Job.ended : State × σ := (job.steps system (job.start false) schedule).run files

abbrev Job.past : List (Event σ) := job.events system (job.start false) files schedule

structure Complete : Prop where
  finished : (job.ended system files schedule).1.Finished
  stored : ∀ write ∈ writesOf (job.past system files schedule),
    ∀ fault, write.outcome system ≠ .error fault

end

theorem complete_of_fair {schedule : List Nat} (hfair : job.Fair schedule)
    (hok : ∀ write ∈ writesOf (job.past system files schedule),
      (write.outcome system).isOk = true) : Complete system job files schedule where
  finished := finished_of_fair system job hfair false files
  stored write hwrite fault houtcome := by
    have hwritten := hok write hwrite
    rw [houtcome] at hwritten
    exact Bool.noConfusion hwritten

theorem Stored.exists_write {template : String} {generated : List GeneratedFile}
    {writes : List (Write σ)} {written : List String}
    (h : Stored system job template generated writes written) :
    ∀ file ∈ generated, ∃ write ∈ writes, write.Puts job template file := by
  induction h with
  | none => simp
  | @next _ _ _ _ file write _ hputs _ ih =>
    refine List.forall_mem_append.mpr ⟨fun other hother => ?_, fun other hother => ?_⟩
    · obtain ⟨found, hfound, hputs⟩ := ih other hother
      exact ⟨found, List.mem_append_left _ hfound, hputs⟩
    · obtain rfl := List.mem_singleton.mp hother
      exact ⟨write, by simp, hputs⟩

section

variable {schedule : List Nat} (h : Complete system job files schedule)
  (hfast : job.failFast = false) (hcalm : Undisturbed view job files)

include h hcalm

theorem Complete.history :
    view.Written ((writesOf (job.past system files schedule)).map (Write.placed view)) files
        (job.ended system files schedule).2 ∧
      (∀ write ∈ (writesOf (job.past system files schedule)).map (Write.placed view),
        write ∈ job.writes view files) ∧
      ∀ visit ∈ visitsOf (job.past system files schedule), (visit.result system job).1 =
        job.converted visit.template (view.read files visit.template) := by
  have hreported := reported_of_finished system job h.finished
  exact hcalm.history hreported.history h.stored fun visit hvisit =>
    List.mem_of_getElem? (hreported.own visit hvisit)

include hfast

/-- Each item is what the template gives as it stood at the start, with all its files written. -/
theorem Complete.gave {item : Item}
    (hitem : item ∈ job.items (job.ended system files schedule).1) :
    (∃ fault, job.converted item.template (view.read files item.template) = .error fault ∧
        item.outcome = .error fault) ∨
      ∃ conversion written,
        job.converted item.template (view.read files item.template) = .ok conversion ∧
        item.outcome = .ok ⟨conversion, written⟩ ∧
        ∀ file ∈ conversion.files, ∃ write ∈ writesOf (job.past system files schedule),
          write.Puts job item.template file := by
  obtain ⟨position, hposition⟩ := List.mem_iff_getElem?.mp hitem
  obtain ⟨-, visit, hvisit, -, htemplate, hflag, hgives⟩ :=
    (reported_of_finished system job h.finished).complete rfl (.inl hfast) position item hposition
  have hconverted := (h.history hcalm).2.2 visit hvisit
  have hwrites : ∀ write ∈ writesAt (job.past system files schedule) position,
      write ∈ writesOf (job.past system files schedule) := fun _ => List.mem_of_mem_filter
  rw [← htemplate, ← hconverted]
  generalize houtcome : item.outcome = outcome at hgives
  generalize writesAt (job.past system files schedule) position = writes at *
  cases hgives with
  | failed hresult => exact .inl ⟨_, hresult, rfl⟩
  | cancelled _ hset => simp [hflag] at hset
  | stored hresult _ hstored =>
    refine .inr ⟨_, _, hresult, rfl, fun file hfile => ?_⟩
    obtain ⟨write, hwrite, hputs⟩ := hstored.exists_write file hfile
    exact ⟨write, hwrites write hwrite, hputs⟩
  | @refused _ _ _ _ _ write _ _ _ _ _ _ _ hrefused =>
    exact absurd hrefused (h.stored write (hwrites write (by simp)) _)

theorem Complete.text_eq :
    ∃ writes, (∀ write, write ∈ writes ↔ write ∈ job.writes view files) ∧
      view.text (job.ended system files schedule).2 = Files.setTexts (view.text files) writes := by
  obtain ⟨hwritten, hwrites, -⟩ := h.history hcalm
  refine ⟨_, fun write => ⟨hwrites write, fun hwrite => ?_⟩, hwritten.text_eq⟩
  rw [Job.writes, ← (reported_of_finished system job h.finished).templates,
    List.flatMap_map] at hwrite
  obtain ⟨item, hitem, hmem⟩ := List.mem_flatMap.mp hwrite
  rw [generated] at hmem
  rcases h.gave hfast hcalm hitem with
    ⟨fault, hconverted, -⟩ | ⟨conversion, written, hconverted, -, hfiles⟩
  · simp [hconverted] at hmem
  · rw [hconverted] at hmem
    obtain ⟨file, hfile, rfl⟩ := List.mem_map.mp hmem
    obtain ⟨put, hput, hputs⟩ := hfiles file hfile
    exact List.mem_map.mpr ⟨put, hput, hputs.placed_eq⟩

theorem Complete.outcome_iff {item : Item}
    (hitem : item ∈ job.items (job.ended system files schedule).1) (conversion : Conversion) :
    (∃ written, item.outcome = .ok ⟨conversion, written⟩) ↔
      job.converted item.template (view.read files item.template) = .ok conversion := by
  rcases h.gave hfast hcalm hitem with
    ⟨fault, hconverted, houtcome⟩ | ⟨other, written, hconverted, houtcome, -⟩
  · simp [hconverted, houtcome]
  · simp [hconverted, houtcome]

end

variable (view job)

def Job.InPlace (items : List Item) (after : σ) : Prop :=
  ∀ item ∈ items, ∀ converted, item.outcome = .ok converted →
    ∀ file ∈ converted.conversion.files,
      view.text after (view.place (Files.join (outDirOf job.outDir item.template) file.path)) =
        some file.contents

variable {view job}

theorem Complete.inPlace_iff {schedule : List Nat} (h : Complete system job files schedule)
    (hfast : job.failFast = false) (hcalm : Undisturbed view job files) :
    job.InPlace view (job.items (job.ended system files schedule).1)
        (job.ended system files schedule).2 ↔
      ∀ write ∈ job.writes view files,
        view.text (job.ended system files schedule).2 write.1 = some write.2 := by
  have htemplates := (reported_of_finished system job h.finished).templates
  constructor
  · intro hplaced write hwrite
    rw [Job.writes, ← htemplates, List.flatMap_map] at hwrite
    obtain ⟨item, hitem, hmem⟩ := List.mem_flatMap.mp hwrite
    rw [generated] at hmem
    split at hmem
    · next conversion hconverted =>
      obtain ⟨written, houtcome⟩ := (h.outcome_iff hfast hcalm hitem conversion).mpr hconverted
      obtain ⟨file, hfile, rfl⟩ := List.mem_map.mp hmem
      exact hplaced item hitem _ houtcome file hfile
    · contradiction
  · intro hwrites item hitem converted houtcome file hfile
    have hconverted := (h.outcome_iff hfast hcalm hitem converted.conversion).mp ⟨_, houtcome⟩
    refine hwrites (_, file.contents) ?_
    rw [Job.writes, ← htemplates, List.flatMap_map]
    refine List.mem_flatMap.mpr ⟨item, hitem, ?_⟩
    rw [generated, hconverted]
    exact List.mem_map.mpr ⟨file, hfile, rfl⟩

end

/-! ## Names of templates -/

def programName (template : String) : String :=
  ((Files.fileName? template).map Files.stem).getD "program"

private theorem programName_proper (template : String) :
    programName template ≠ "" ∧ '/' ∉ (programName template).toList := by
  rw [programName]
  cases hname : Files.fileName? template with
  | none => exact ⟨by decide, by decide⟩
  | some name =>
    rw [Option.map_some, Option.getD_some]
    exact Files.stem_fileName hname

private theorem isName_target (target : Target) :
    Files.IsName target.name ∧ Files.IsName target.entryFile := by
  cases target <;> exact ⟨⟨by decide, by decide, by decide⟩, ⟨by decide, by decide, by decide⟩⟩

private theorem place_program (outDir : String) {template : String}
    (hdots : programName template ≠ "." ∧ programName template ≠ "..") (target : Target) :
    Files.Tree.place
        (Files.join (outDirOf outDir template) (target.name ++ "/" ++ target.entryFile)) =
      Files.Tree.place outDir ++ [programName template, target.name, target.entryFile] := by
  obtain ⟨hne, hslash⟩ := programName_proper template
  obtain ⟨hname, hentry⟩ := isName_target target
  have hdirectory : Files.Tree.place (outDirOf outDir template) =
      Files.Tree.place outDir ++ [programName template] :=
    (Files.Tree.place_join (Files.isAbsolute_of_no_slash hslash)).trans
      (Files.IsName.resolve_segments ⟨hne, hslash, hdots⟩ _)
  rw [Files.Tree.place_join (by cases target <;> decide), Files.segments_slash,
    Files.Tree.resolve_append, hname.resolve_segments, hentry.resolve_segments, hdirectory]
  simp

theorem mem_generated (job : Job) (tree : Files.Tree) {template : String}
    (hdots : programName template ≠ "." ∧ programName template ≠ "..") :
    ∃ source : Target → String, ∀ write ∈ generated Files.Tree.view job tree template,
      ∃ target, write = (Files.Tree.place job.outDir ++
        [programName template, target.name, target.entryFile], source target) := by
  rw [generated]
  cases hread : Files.Tree.view.read tree template with
  | none => exact ⟨fun _ => "", by simp [Job.converted]⟩
  | some text =>
    cases hconverted : Conversion.ofTemplate text job.registry job.targets with
      rw [Job.converted, hconverted]
    | error fault => exact ⟨fun _ => "", fun write hwrite => absurd hwrite List.not_mem_nil⟩
    | ok conversion =>
      obtain ⟨source, hfiles⟩ := files_of_ofTemplate hconverted
      refine ⟨source, fun write hwrite => ?_⟩
      change write ∈ View.writes _ _ conversion.files at hwrite
      rw [View.writes, hfiles, List.map_map] at hwrite
      obtain ⟨target, -, rfl⟩ := List.mem_map.mp hwrite
      refine ⟨target, ?_⟩
      rw [← place_program job.outDir hdots target]
      rfl

private theorem target_eq_of_name {first second : Target} (h : first.name = second.name) :
    first = second := by
  cases first <;> cases second <;> first | rfl | exact absurd h (by decide)

private theorem agree_of_programNames (job : Job) (tree : Files.Tree)
    (hdots : ∀ template ∈ job.templates,
      programName template ≠ "." ∧ programName template ≠ "..")
    (hdistinct : ∀ first ∈ job.templates, ∀ second ∈ job.templates,
      programName first = programName second → first = second) :
    Files.Agree (job.writes Files.Tree.view tree) := by
  intro first hfirst second hsecond hplace
  obtain ⟨template, htemplate, hfirst⟩ := List.mem_flatMap.mp hfirst
  obtain ⟨other, hother, hsecond⟩ := List.mem_flatMap.mp hsecond
  obtain ⟨source, hwrites⟩ := mem_generated job tree (hdots template htemplate)
  have hname : programName template = programName other := by
    obtain ⟨_, hwrites'⟩ := mem_generated job tree (hdots other hother)
    obtain ⟨_, rfl⟩ := hwrites first hfirst
    obtain ⟨_, rfl⟩ := hwrites' second hsecond
    exact (List.cons.inj (List.append_cancel_left hplace)).1
  obtain rfl := hdistinct template htemplate other hother hname
  obtain ⟨target, rfl⟩ := hwrites first hfirst
  obtain ⟨target', rfl⟩ := hwrites second hsecond
  have htarget : target.name = target'.name :=
    (List.cons.inj (List.cons.inj (List.append_cancel_left hplace)).2).1
  rw [target_eq_of_name htarget]

/-! ## Files after a batch -/

/-- However many workers a batch has and whatever order they take turns in, it leaves the programs
of every converted template in place exactly when its templates never put different texts at one
place. Then the files are those that the templates give one after the other. -/
theorem contents_any_schedule {σ Place : Type} [DecidableEq Place]
    {system : Files.FileSystem (StateM σ)} (view : View system Place) (job : Job) (files : σ)
    (hfast : job.failFast = false) (hcalm : Undisturbed view job files) (workers : Nat)
    (schedule : List Nat) (h : Complete system { job with workers } files schedule) :
    let batch := { job with workers }
    (job.InPlace view (batch.items (batch.ended system files schedule).1)
        (batch.ended system files schedule).2 ↔ Files.Agree (job.writes view files)) ∧
      (Files.Agree (job.writes view files) →
        view.text (batch.ended system files schedule).2 =
          Files.setTexts (view.text files) (job.writes view files)) := by
  intro batch
  have hcalm' : Undisturbed view batch files := ⟨hcalm.untouched, hcalm.reachable⟩
  obtain ⟨writes, hwrites, htext⟩ := h.text_eq hfast hcalm'
  have hsame : Files.Agree (job.writes view files) →
      view.text (batch.ended system files schedule).2 =
        Files.setTexts (view.text files) (job.writes view files) :=
    fun hagree => htext.trans (hagree.setTexts_eq hwrites)
  refine ⟨(h.inPlace_iff hfast hcalm').trans ⟨?_, ?_⟩, hsame⟩
  · intro hplaced first hfirst second hsecond hplace
    have heq := hplaced first hfirst
    rw [hplace, hplaced second hsecond] at heq
    exact (Option.some.inj heq).symm
  · intro hagree write hwrite
    rw [hsame hagree]
    exact hagree.setTexts_of_mem hwrite

def twoTemplates (first second : String) : Job := ⟨[first, second], {}, [.python], "out", 1, false⟩

def secondFirst : List Nat := [0, 0, 1, 1, 1, 1] ++ List.replicate 16 0 ++ List.replicate 16 1

theorem fair_secondFirst (first second : String) :
    { twoTemplates first second with workers := 2 }.Fair secondFirst := by
  change ∀ worker < 2, 16 ≤ secondFirst.count worker
  decide

def siteAndPage : Files.Tree :=
  (({} : Files.Tree).withFile "a/site.json" "\x7b\x7d").withFile "b/page.json" "\x7b\x7d"

theorem contents_any_schedule_siteAndPage :
    let job := twoTemplates "a/site.json" "b/page.json"
    let batch := { job with workers := 2 }
    let last := batch.ended Files.Tree.system siteAndPage secondFirst
    Files.Agree (job.writes Files.Tree.view siteAndPage) ∧
      job.InPlace Files.Tree.view (batch.items last.1) last.2 := by
  have hagree := agree_of_programNames (twoTemplates "a/site.json" "b/page.json") siteAndPage
    (by decide +kernel) (by decide +kernel)
  refine ⟨hagree, (contents_any_schedule Files.Tree.view (twoTemplates "a/site.json" "b/page.json")
    siteAndPage rfl ⟨?_, ?_⟩ 2 secondFirst (complete_of_fair (fair_secondFirst _ _) ?_)).1.mpr
    hagree⟩
  · decide +kernel
  · decide +kernel
  · decide +kernel

def twoSites : Files.Tree :=
  (({} : Files.Tree).withFile "a/site.json" "\x7b\x7d").withFile "b/site.json"
    "\x7b\"configuration\":\x7b\"size\":\x7b\"type\":\"Int\"\x7d\x7d\x7d"

/-- Two templates of one name: each is converted and published, whatever the order, but the program
that is there in the end is that of the template published last. -/
theorem twoSites_overwritten :
    let job := twoTemplates "a/site.json" "b/site.json"
    let last := job.ended Files.Tree.system twoSites job.inTurn
    let other := { job with workers := 2 }.ended Files.Tree.system twoSites secondFirst
    (Complete Files.Tree.system job twoSites job.inTurn ∧
        last.2.read "out/site/python/__main__.py" =
          some ("import pulumi\n\nconfig = pulumi.Config()\n" ++
            "size = config.require_int(\"size\")\n")) ∧
      Complete Files.Tree.system { job with workers := 2 } twoSites secondFirst ∧
        other.2.read "out/site/python/__main__.py" = some "import pulumi\n\n" := by
  have hfair := fair_inTurn (twoTemplates "a/site.json" "b/site.json")
  have hfair' := fair_secondFirst "a/site.json" "b/site.json"
  refine ⟨And.imp_left (complete_of_fair hfair) ?_, And.imp_left (complete_of_fair hfair') ?_⟩
  · decide +kernel
  · decide +kernel

end Provision.Batch
