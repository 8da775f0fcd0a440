import Provision.Proofs.Batch.Turns

/-!
# The accounts of a batch

Whatever order the workers take their turns in, the positions that were handed out are those of the
templates converted so far and of those about to be, each once; and each template converted so far
is being published or has given its item, which follows from its conversion and its writes. So when
all have stopped, the items of the batch can be read off what happened to the files.
-/

namespace Provision.Batch

section

variable {σ : Type} (system : Files.FileSystem (StateM σ)) (job : Job)

/-! ## What happens to the files -/

def visitsOf (events : List (Event σ)) : List (Visit σ) :=
  events.filterMap fun
    | .visit visit => some visit
    | .write _ => none

def writesOf (events : List (Event σ)) : List (Write σ) :=
  events.filterMap fun
    | .visit _ => none
    | .write write => some write

def writesAt (events : List (Event σ)) (position : Nat) : List (Write σ) :=
  (writesOf events).filter (·.position == position)

@[simp] theorem visitsOf_append (first second : List (Event σ)) :
    visitsOf (first ++ second) = visitsOf first ++ visitsOf second := List.filterMap_append

@[simp] theorem writesOf_append (first second : List (Event σ)) :
    writesOf (first ++ second) = writesOf first ++ writesOf second := List.filterMap_append

@[simp] theorem writesAt_append (first second : List (Event σ)) (position : Nat) :
    writesAt (first ++ second) position = writesAt first position ++ writesAt second position := by
  simp [writesAt]

structure Write.Puts (write : Write σ) (template : String) (file : GeneratedFile) : Prop where
  path_eq : write.path = Files.join (outDirOf job.outDir template) file.path
  contents_eq : write.contents = file.contents

/-- The files of a template and the writes that put them in place, with the paths that changed. -/
inductive Stored (template : String) :
    List GeneratedFile → List (Write σ) → List String → Prop
  | none : Stored template [] [] []
  | next {files : List GeneratedFile} {writes : List (Write σ)} {written paths : List String}
      {file : GeneratedFile} {write : Write σ} (h : Stored template files writes written)
      (hputs : write.Puts job template file) (houtcome : write.outcome system = .ok paths) :
      Stored template (files ++ [file]) (writes ++ [write]) (written ++ paths)

/-- What becomes of a template: its conversion fails, or is cancelled before anything is written, or
its files are written one after the other up to the first that cannot be. -/
inductive Visit.Gives (visit : Visit σ) : List (Write σ) → Outcome → Prop
  | failed {fault : Fault} (hresult : (visit.result system job).1 = .error fault) :
      visit.Gives [] (.error fault)
  | cancelled {conversion : Conversion} (hresult : (visit.result system job).1 = .ok conversion)
      (hflag : visit.cancelled = true) : visit.Gives [] (.error (.cancelled visit.template))
  | stored {conversion : Conversion} {writes : List (Write σ)} {written : List String}
      (hresult : (visit.result system job).1 = .ok conversion) (hflag : visit.cancelled = false)
      (hstored : Stored system job visit.template conversion.files writes written) :
      visit.Gives writes (.ok ⟨conversion, written⟩)
  | refused {conversion : Conversion} {files rest : List GeneratedFile} {file : GeneratedFile}
      {writes : List (Write σ)} {write : Write σ} {written : List String}
      {fault : Files.PublishFault} (hresult : (visit.result system job).1 = .ok conversion)
      (hflag : visit.cancelled = false) (hfiles : conversion.files = files ++ file :: rest)
      (hstored : Stored system job visit.template files writes written)
      (hputs : write.Puts job visit.template file)
      (houtcome : write.outcome system = .error fault) :
      visit.Gives (writes ++ [write]) (.error (.publish fault))

/-- A write belongs to a template that was converted before. -/
def Founded (past : List (Event σ)) (write : Write σ) : Prop :=
  ∃ visit ∈ visitsOf past, visit.position = write.position ∧ visit.cancelled = false ∧
    ∃ conversion, (visit.result system job).1 = .ok conversion ∧
      ∃ file ∈ conversion.files, write.Puts job visit.template file

/-- Each event finds the files as the one before it left them. -/
inductive History (start : σ) : List (Event σ) → σ → Prop
  | nil : History start [] start
  | visit {past : List (Event σ)} {visit : Visit σ} (h : History start past visit.before) :
      History start (past ++ [.visit visit]) (visit.result system job).2
  | write {past : List (Event σ)} {write : Write σ} (h : History start past write.before)
      (hfounded : Founded system job past write) :
      History start (past ++ [.write write]) (write.result system).2

/-! ## Turns -/

def Phase.taken : Phase → List Nat
  | .converting position _ => [position]
  | _ => []

def Phase.visited : Phase → List Nat
  | .publishing position .. | .settling position _ | .recording position _ => [position]
  | _ => []

@[simp] theorem taken_afterConversion (position : Nat) (template : String) (cancelled : Bool)
    (result : Except Fault Conversion) :
    (Phase.afterConversion position template cancelled result).taken = [] ∧
      (Phase.afterConversion position template cancelled result).visited = [position] := by
  unfold Phase.afterConversion
  split
  · exact ⟨rfl, rfl⟩
  · split <;> exact ⟨rfl, rfl⟩

@[simp] theorem taken_afterWrite (position : Nat) (template : String) (conversion : Conversion)
    (remaining : List GeneratedFile) (written : List String)
    (outcome : Except Files.PublishFault (List String)) :
    (Phase.afterWrite position template conversion remaining written outcome).taken = [] ∧
      (Phase.afterWrite position template conversion remaining written outcome).visited =
        [position] := by
  unfold Phase.afterWrite
  split <;> exact ⟨rfl, rfl⟩

def Gave (past : List (Event σ)) (position : Nat) (item : Item) : Prop :=
  ∃ visit ∈ visitsOf past, visit.position = position ∧ visit.template = item.template ∧
    visit.Gives system job (writesAt past position) item.outcome

def Phase.Consistent (past : List (Event σ)) : Phase → Prop
  | .publishing position template conversion remaining written =>
    ∃ visit ∈ visitsOf past, visit.position = position ∧ visit.template = template ∧
      visit.cancelled = false ∧ (visit.result system job).1 = .ok conversion ∧
      ∃ files, conversion.files = files ++ remaining ∧
        Stored system job template files (writesAt past position) written
  | .settling position item | .recording position item => Gave system job past position item
  | _ => True

theorem flatMap_middle {α : Type} (f : Phase → List α) (first last : List Phase) (phase : Phase) :
    ((first ++ phase :: last).flatMap f).Perm (f phase ++ (first ++ last).flatMap f) := by
  simpa using List.perm_middle.flatMap_right f

variable {system job} {past more : List (Event σ)} {cancelled : Bool} {start : σ}

theorem Gave.append {position : Nat} {item : Item} (h : Gave system job past position item)
    (hmore : writesAt more position = []) :
    Gave system job (past ++ more) position item := by
  obtain ⟨visit, hvisit, hposition, htemplate, hgives⟩ := h
  refine ⟨visit, by simp [hvisit], hposition, htemplate, ?_⟩
  rwa [writesAt_append, hmore, List.append_nil]

theorem Phase.Consistent.append {phase : Phase} (h : phase.Consistent system job past)
    (hmore : ∀ position ∈ phase.visited, writesAt more position = []) :
    phase.Consistent system job (past ++ more) := by
  cases phase with
  | publishing position template conversion remaining written =>
    obtain ⟨visit, hvisit, hposition, htemplate, hflag, hresult, files, hfiles, hstored⟩ := h
    refine ⟨visit, by simp [hvisit], hposition, htemplate, hflag, hresult, files, hfiles, ?_⟩
    rwa [writesAt_append, hmore position (by simp [visited]), List.append_nil]
  | settling position item | recording position item =>
    exact Gave.append h (hmore position (by simp [visited]))
  | ready | taking | converting | stopped => trivial

section

variable {state next : State} {files files' : σ} {phase phase' : Phase} {event : Option (Event σ)}
  (h : Turn system job state files phase event phase' next files')

include h

theorem Turn.handedOut {others positions : List Nat}
    (hkept : (phase.taken ++ others ++ positions).Perm
      (List.range (min state.next job.templates.length))) :
    (phase'.taken ++ others ++
        (positions ++ (visitsOf event.toList).map Visit.position)).Perm
      (List.range (min next.next job.templates.length)) := by
  cases h with
  | take htemplate =>
    have hlt := (List.getElem?_eq_some_iff.mp htemplate).1
    rw [Nat.min_eq_left (Nat.le_of_lt hlt)] at hkept
    rw [Nat.min_eq_left hlt, List.range_succ]
    simp only [visitsOf, Option.toList_none, List.filterMap_nil, List.map_nil, List.append_nil]
    exact (hkept.cons _).trans (List.perm_append_singleton _ _).symm
  | finish htemplate =>
    have hle := List.getElem?_eq_none_iff.mp htemplate
    rw [Nat.min_eq_right hle] at hkept
    rw [Nat.min_eq_right (Nat.le_succ_of_le hle)]
    simpa [visitsOf, Phase.taken] using hkept
  | @convert visit =>
    refine .trans ?_ hkept
    simp only [taken_afterConversion, List.nil_append, ← List.append_assoc]
    exact List.perm_append_singleton _ _
  | write =>
    rw [(taken_afterWrite ..).1]
    refine .trans (.of_eq ?_) hkept
    simp [visitsOf, Phase.taken]
  | stop | proceed | close | settle | record | rest =>
    simpa [visitsOf, Phase.taken] using hkept

theorem Turn.handedIn {others positions : List Nat}
    (hkept : (phase.visited ++ others ++ state.results.map Prod.fst).Perm positions) :
    (phase'.visited ++ others ++ next.results.map Prod.fst).Perm
      (positions ++ (visitsOf event.toList).map Visit.position) := by
  cases h with
  | @convert visit =>
    simp only [taken_afterConversion]
    exact (hkept.cons _).trans (List.perm_append_singleton _ _).symm
  | record =>
    refine .trans ?_ (hkept.trans (by simp [visitsOf]))
    exact List.perm_middle
  | write =>
    rw [(taken_afterWrite ..).2]
    exact hkept.trans (.of_eq (by simp [visitsOf]))
  | stop | proceed | take | finish | close | settle | rest =>
    simpa [visitsOf, Phase.visited] using hkept

theorem Turn.held {position : Nat} {template : String}
    (hphase : phase' = .converting position template) :
    job.templates[position]? = some template := by
  have htaken : phase'.taken = [position] := by rw [hphase]; rfl
  cases h with
  | take htemplate =>
    obtain ⟨rfl, rfl⟩ := Phase.converting.inj hphase
    exact htemplate
  | convert | write => simp at htaken
  | _ => cases hphase

theorem Turn.cancelled_cases (hcancelled : next.cancelled = true) :
    state.cancelled = true ∨ job.failFast = true ∧
      ∃ position item, phase = .settling position item ∧ item.outcome.isOk = false := by
  cases h with
  | @settle position item =>
    simp only [Bool.or_eq_true, Bool.and_eq_true, Bool.not_eq_true'] at hcancelled
    exact hcancelled.imp id fun hfailed => ⟨hfailed.1, _, _, rfl, hfailed.2⟩
  | _ => exact .inl hcancelled

theorem Turn.cancelled_mono (hcancelled : state.cancelled = true) : next.cancelled = true := by
  cases h <;> simp [hcancelled]

theorem Turn.stopped_cases (hphase : phase' = .stopped) :
    phase = .stopped ∨ state.cancelled = true ∨ job.templates.length ≤ state.next := by
  cases h with
  | stop hcancelled => exact .inr (.inl hcancelled)
  | finish htemplate => exact .inr (.inr (List.getElem?_eq_none_iff.mp htemplate))
  | rest => exact .inl rfl
  | convert | write =>
    have hvisited : Phase.stopped.visited = [] := rfl
    simp [← hphase] at hvisited
  | _ => cases hphase

theorem Turn.results_cases {entry : Nat × Item} (hentry : entry ∈ next.results) :
    entry ∈ state.results ∨ phase = .recording entry.1 entry.2 := by
  cases h with
  | record => exact (List.mem_cons.mp hentry).symm.imp_right fun heq => by rw [heq]
  | _ => exact .inl hentry

theorem Turn.visit_cases {visit : Visit σ} (hvisit : visit ∈ visitsOf event.toList) :
    phase = .converting visit.position visit.template ∧ visit.cancelled = state.cancelled := by
  cases h with
  | convert hflag =>
    obtain rfl := List.mem_singleton.mp hvisit
    exact ⟨rfl, hflag⟩
  | _ => simp [visitsOf] at hvisit

theorem Turn.writes_cases (position : Nat) :
    writesAt event.toList position = [] ∨ phase.visited = [position] := by
  cases h with
  | @write write =>
    by_cases heq : write.position = position
    · exact .inr (by rw [← heq]; rfl)
    · exact .inl (by simp [writesAt, writesOf, heq])
  | _ => exact .inl rfl

theorem Turn.consistent (hphase : phase.Consistent system job past)
    (hnew : ∀ position ∈ phase.taken, writesAt past position = []) :
    phase'.Consistent system job (past ++ event.toList) := by
  cases h with
  | @convert visit =>
    have hvisit : visit ∈ visitsOf (past ++ [.visit visit]) := by simp [visitsOf]
    have hnone : writesAt (past ++ [.visit visit]) visit.position = [] := by
      rw [writesAt_append, hnew _ (by simp [Phase.taken])]
      rfl
    unfold Phase.afterConversion
    split
    · next fault hresult =>
      exact ⟨visit, hvisit, rfl, rfl, hnone ▸ .failed hresult⟩
    · next conversion hresult =>
      split
      · next hflag => exact ⟨visit, hvisit, rfl, rfl, hnone ▸ .cancelled hresult hflag⟩
      · next hflag =>
        exact ⟨visit, hvisit, rfl, rfl, Bool.eq_false_iff.mpr hflag, hresult, [], rfl,
          hnone ▸ .none⟩
  | @write write template conversion file rest written hpath hcontents =>
    obtain ⟨visit, hvisit, hposition, rfl, hflag, hresult, stored, hfiles, hstored⟩ := hphase
    have hwrites : writesAt (past ++ [.write write]) write.position =
        writesAt past write.position ++ [write] := by simp [writesAt, writesOf]
    have hputs : write.Puts job visit.template file := ⟨hpath, hcontents⟩
    have hmem : visit ∈ visitsOf (past ++ [.write write]) := by simp [hvisit]
    unfold Phase.afterWrite
    split
    · next fault houtcome =>
      refine ⟨visit, hmem, hposition, rfl, ?_⟩
      exact hwrites ▸ .refused hresult hflag hfiles hstored hputs houtcome
    · next paths houtcome =>
      refine ⟨visit, hmem, hposition, rfl, hflag, hresult, stored ++ [file], by simp [hfiles], ?_⟩
      exact hwrites ▸ .next hstored hputs houtcome
  | close =>
    obtain ⟨visit, hvisit, hposition, rfl, hflag, hresult, stored, hfiles, hstored⟩ := hphase
    obtain rfl : _ = stored := hfiles.trans (List.append_nil stored)
    refine ⟨visit, by simp [hvisit], hposition, rfl, ?_⟩
    rw [Option.toList_none, List.append_nil]
    exact .stored hresult hflag hstored
  | settle =>
    rw [Option.toList_none, List.append_nil]
    exact hphase
  | stop | proceed | take | finish | record | rest => trivial

theorem Turn.history (hpast : History system job start past files)
    (hphase : phase.Consistent system job past) :
    History system job start (past ++ event.toList) files' := by
  cases h with
  | @convert visit hflag hfiles =>
    subst hfiles
    exact .visit hpast
  | @write write template conversion file rest written hpath hcontents hfiles =>
    subst hfiles
    obtain ⟨visit, hvisit, hposition, rfl, hflag, hresult, stored, hstored, -⟩ := hphase
    exact .write hpast ⟨visit, hvisit, hposition, hflag, conversion, hresult, file,
      by simp [hstored], hpath, hcontents⟩
  | _ => simpa using hpast

end

/-! ## Batches under way -/

variable (system job)

def Visit.Failed (past : List (Event σ)) (visit : Visit σ) : Prop :=
  (∃ fault, (visit.result system job).1 = .error fault) ∨
    ∃ write ∈ writesAt past visit.position, ∃ fault, write.outcome system = .error fault

/-- Why a batch is cancelled: it was so from the start, or failures cancel it and a template failed
while it was not. -/
def Caused (cancelled : Bool) (past : List (Event σ)) : Prop :=
  cancelled = true ∨ job.failFast = true ∧
    ∃ visit ∈ visitsOf past, visit.cancelled = false ∧ visit.Failed system job past

structure Accounts (cancelled : Bool) (start : σ) (past : List (Event σ)) (state : State)
    (files : σ) : Prop where
  nonempty : state.workers ≠ []
  /-- Every position handed out is that of a template converted or about to be, each once. -/
  handedOut : (state.workers.flatMap Phase.taken ++ (visitsOf past).map Visit.position).Perm
    (List.range (min state.next job.templates.length))
  /-- Every template converted is with one worker, or its item was handed in. -/
  handedIn : (state.workers.flatMap Phase.visited ++ state.results.map Prod.fst).Perm
    ((visitsOf past).map Visit.position)
  held : ∀ position template, .converting position template ∈ state.workers →
    job.templates[position]? = some template
  visited : ∀ visit ∈ visitsOf past, job.templates[visit.position]? = some visit.template
  history : History system job start past files
  consistent : ∀ phase ∈ state.workers, phase.Consistent system job past
  gave : ∀ entry ∈ state.results, Gave system job past entry.1 entry.2
  caused : state.cancelled = true → Caused system job cancelled past
  warned : ∀ visit ∈ visitsOf past, visit.cancelled = true → Caused system job cancelled past
  stopped : .stopped ∈ state.workers → state.cancelled = true ∨ job.templates.length ≤ state.next

theorem accounts_start (cancelled : Bool) (files : σ) :
    Accounts system job cancelled files [] (job.start cancelled) files where
  nonempty := by simp [Job.start, Job.workerCount]
  handedOut := by simp [Job.start, Phase.taken, visitsOf]
  handedIn := by simp [Job.start, Phase.visited, visitsOf]
  held := by simp [Job.start]
  visited := by simp [visitsOf]
  history := .nil
  consistent phase hphase := by
    obtain rfl := List.eq_of_mem_replicate hphase
    trivial
  gave := by simp [Job.start]
  caused := .inl
  warned := by simp [visitsOf]
  stopped := by simp [Job.start]

variable {system job}

theorem Caused.append (h : Caused system job cancelled past) (more : List (Event σ)) :
    Caused system job cancelled (past ++ more) := by
  rcases h with hcancelled | ⟨hfast, visit, hvisit, hflag, hfailed⟩
  · exact .inl hcancelled
  · refine .inr ⟨hfast, visit, by simp [hvisit], hflag, hfailed.imp_right ?_⟩
    rintro ⟨write, hwrite, hfault⟩
    exact ⟨write, by simp [hwrite], hfault⟩

theorem Visit.Gives.failed_of_not_isOk {visit : Visit σ} {outcome : Outcome}
    (h : visit.Gives system job (writesAt past visit.position) outcome)
    (hflag : visit.cancelled = false) (hfailed : outcome.isOk = false) :
    visit.Failed system job past := by
  generalize hwrites : writesAt past visit.position = writes at h
  cases h with
  | failed hresult => exact .inl ⟨_, hresult⟩
  | cancelled _ hset => simp [hflag] at hset
  | stored => cases hfailed
  | refused _ _ _ _ _ houtcome => exact .inr ⟨_, by simp [hwrites], _, houtcome⟩

theorem History.writesAt_eq_nil {files : σ} (h : History system job start past files)
    {position : Nat} (hnew : position ∉ (visitsOf past).map Visit.position) :
    writesAt past position = [] := by
  induction h with
  | nil => rfl
  | visit _ ih =>
    rw [visitsOf_append, List.map_append, List.mem_append, not_or] at hnew
    rw [writesAt_append, ih hnew.1]
    rfl
  | @write past write _ hfounded ih =>
    rw [visitsOf_append, List.map_append, List.mem_append, not_or] at hnew
    obtain ⟨visit, hvisit, hposition, -⟩ := hfounded
    have hne : write.position ≠ position := by
      rintro rfl
      exact hnew.1 (List.mem_map.mpr ⟨visit, hvisit, hposition⟩)
    rw [writesAt_append, ih hnew.1]
    simp [writesAt, writesOf, hne]

section

variable {files : σ} {state : State} (h : Accounts system job cancelled start past state files)

include h

theorem Accounts.nodup_positions : ((visitsOf past).map Visit.position).Nodup :=
  (List.nodup_append.mp (h.handedOut.nodup_iff.mpr List.nodup_range)).2.1

theorem Accounts.caused_of_gave {position : Nat} {item : Item}
    (hgave : Gave system job past position item) (hfailed : item.outcome.isOk = false)
    (hfast : job.failFast = true) : Caused system job cancelled past := by
  obtain ⟨visit, hvisit, rfl, -, hgives⟩ := hgave
  cases hflag : visit.cancelled with
  | true => exact h.warned visit hvisit hflag
  | false => exact .inr ⟨hfast, visit, hvisit, hflag, hgives.failed_of_not_isOk hflag hfailed⟩

theorem Accounts.turn {first last : List Phase} {phase phase' : Phase} {next : State} {files' : σ}
    (hworkers : state.workers = first ++ phase :: last)
    (hturn : Turn system job state files phase (eventOf job state files phase) phase' next files') :
    Accounts system job cancelled start (past ++ (eventOf job state files phase).toList)
      { next with workers := first ++ phase' :: last } files' := by
  have hphase : phase ∈ state.workers := by simp [hworkers]
  have hmem : ∀ other ∈ first ++ phase' :: last, other = phase' ∨ other ∈ first ++ last := by
    intro other hother
    simpa [or_left_comm] using hother
  have hothers : ∀ other ∈ first ++ last, other ∈ state.workers := by
    intro other hother
    rw [hworkers]
    exact (List.sublist_cons_self phase last).append_left first |>.mem hother
  -- What this worker writes is for none of the templates that the others hold.
  have hapart : ∀ position ∈ (first ++ last).flatMap Phase.visited ++ state.results.map Prod.fst,
      writesAt (eventOf job state files phase).toList position = [] := by
    intro position hposition
    refine (hturn.writes_cases position).resolve_right fun hvisited => ?_
    have hnodup := h.handedIn.nodup_iff.mpr h.nodup_positions
    rw [hworkers, ((flatMap_middle Phase.visited first last phase).append_right _).nodup_iff,
      hvisited, List.append_assoc] at hnodup
    exact (List.nodup_cons.mp hnodup).1 hposition
  constructor
  case nonempty => simp
  case handedOut =>
      have hkept := h.handedOut
      rw [hworkers] at hkept
      rw [visitsOf_append, List.map_append]
      refine ((flatMap_middle Phase.taken first last phase').append_right _).trans
        (hturn.handedOut ?_)
      exact ((flatMap_middle Phase.taken first last phase).append_right _).symm.trans hkept
  case handedIn =>
      have hkept := h.handedIn
      rw [hworkers] at hkept
      rw [visitsOf_append, List.map_append]
      refine ((flatMap_middle Phase.visited first last phase').append_right _).trans
        (hturn.handedIn ?_)
      exact ((flatMap_middle Phase.visited first last phase).append_right _).symm.trans hkept
  case held =>
      intro position template hheld
      rcases hmem _ hheld with heq | hother
      · exact hturn.held heq.symm
      · exact h.held position template (hothers _ hother)
  case visited =>
      intro visit hvisit
      rw [visitsOf_append] at hvisit
      rcases List.mem_append.mp hvisit with hpast | hnew
      · exact h.visited visit hpast
      · exact h.held _ _ ((hturn.visit_cases hnew).1 ▸ hphase)
  case history => exact hturn.history h.history (h.consistent phase hphase)
  case consistent =>
      intro other hother
      rcases hmem _ hother with rfl | hother
      · refine hturn.consistent (h.consistent phase hphase) fun position htaken => ?_
        refine h.history.writesAt_eq_nil fun hposition => ?_
        have hnodup := h.handedOut.nodup_iff.mpr List.nodup_range
        exact (List.nodup_append.mp hnodup).2.2 position
          (List.mem_flatMap.mpr ⟨phase, hphase, htaken⟩) position hposition rfl
      · refine (h.consistent other (hothers _ hother)).append fun position hposition => ?_
        exact hapart position (List.mem_append_left _
          (List.mem_flatMap.mpr ⟨other, hother, hposition⟩))
  case gave =>
      intro entry hentry
      rcases hturn.results_cases hentry with hbefore | rfl
      · exact (h.gave entry hbefore).append
          (hapart _ (List.mem_append_right _ (List.mem_map_of_mem hbefore)))
      · have hgave : Gave system job past entry.1 entry.2 := h.consistent _ hphase
        simpa [eventOf] using hgave
  case caused =>
      intro hcancelled
      rcases hturn.cancelled_cases hcancelled with hbefore | ⟨hfast, position, item, rfl, hfailed⟩
      · exact (h.caused hbefore).append _
      · exact (h.caused_of_gave (h.consistent _ hphase) hfailed hfast).append _
  case warned =>
      intro visit hvisit hflag
      rw [visitsOf_append] at hvisit
      rcases List.mem_append.mp hvisit with hpast | hnew
      · exact (h.warned visit hpast hflag).append _
      · rw [(hturn.visit_cases hnew).2] at hflag
        exact (h.caused hflag).append _
  case stopped =>
      intro hstopped
      have hbefore : state.cancelled = true ∨ job.templates.length ≤ state.next := by
        rcases hmem _ hstopped with heq | hother
        · rcases hturn.stopped_cases heq.symm with rfl | hcases
          · exact h.stopped hphase
          · exact hcases
        · exact h.stopped (hothers _ hother)
      exact hbefore.imp hturn.cancelled_mono fun hle => Nat.le_trans hle hturn.next_le

theorem Accounts.step (worker : Nat) :
    Accounts system job cancelled start
      (past ++ (state.workers[worker]?.bind (eventOf job state files)).toList)
      ((job.step system state worker).run files).1
      ((job.step system state worker).run files).2 := by
  rcases step_cases system job state files worker with
    ⟨hnone, hrun⟩ | ⟨first, phase, last, phase', next, files', hworkers, -, hphase, hturn, hrun⟩
  · simpa [hnone, hrun] using h
  · rw [hphase, hrun]
    exact h.turn hworkers hturn

theorem Accounts.steps (schedule : List Nat) :
    Accounts system job cancelled start (past ++ job.events system state files schedule)
      ((job.steps system state schedule).run files).1
      ((job.steps system state schedule).run files).2 := by
  induction schedule generalizing past state files with
  | nil =>
    rw [Job.events, List.append_nil]
    exact h
  | cons worker rest ih =>
    rw [run_steps_cons, events_cons, ← List.append_assoc]
    exact ih (h.step worker)

end

theorem accounts_events (system : Files.FileSystem (StateM σ)) (job : Job) (cancelled : Bool)
    (files : σ) (schedule : List Nat) :
    Accounts system job cancelled files (job.events system (job.start cancelled) files schedule)
      ((job.steps system (job.start cancelled) schedule).run files).1
      ((job.steps system (job.start cancelled) schedule).run files).2 := by
  simpa using (accounts_start system job cancelled files).steps schedule

end

end Provision.Batch
