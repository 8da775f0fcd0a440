import Mathlib.Data.List.Nodup
import Provision.Proofs.Batch.Accounts

/-!
# The items of a batch

A batch that has finished reports one item for each template, in the order of the templates,
whatever order its workers took their turns in. The item of a template is what its one conversion
and its writes gave; a template that was not converted, or not published, is reported as cancelled.
Where nothing cancels the batch every template is converted.
-/

namespace Provision.Batch

theorem length_matchUp (position : Nat) (results : List (Nat × Item)) (templates : List String) :
    (Job.matchUp position results templates).length = templates.length := by
  fun_induction Job.matchUp position results templates <;> simp_all

theorem matchUp_cases {position : Nat} {results : List (Nat × Item)} {templates : List String}
    (hsorted : results.Pairwise fun left right => left.1 < right.1)
    (hfrom : ∀ entry ∈ results, position ≤ entry.1) {index : Nat} {template : String}
    (htemplate : templates[index]? = some template) :
    (∃ item, (position + index, item) ∈ results ∧
        (Job.matchUp position results templates)[index]? = some item) ∨
      (∀ item, (position + index, item) ∉ results) ∧
        (Job.matchUp position results templates)[index]? = some (.cancelled template) := by
  fun_induction Job.matchUp position results templates generalizing index with
  | case1 => simp at htemplate
  | case2 position first rest ih =>
    cases index with
    | zero =>
      obtain rfl := Option.some.inj htemplate
      exact .inr ⟨by simp, rfl⟩
    | succ index =>
      rcases ih hsorted (by simp) htemplate with ⟨_, hmem, -⟩ | ⟨-, hget⟩
      · contradiction
      · exact .inr ⟨by simp, hget⟩
  | case3 position first rest done item others hdone ih =>
    obtain rfl := eq_of_beq hdone
    obtain ⟨hfirst, hothers⟩ := List.pairwise_cons.mp hsorted
    cases index with
    | zero => exact .inl ⟨item, List.mem_cons_self, rfl⟩
    | succ index =>
      have hmem : ∀ other, (done + (index + 1), other) ∈ (done, item) :: others ↔
          (done + 1 + index, other) ∈ others := by
        intro other
        rw [List.mem_cons, show done + (index + 1) = done + 1 + index by omega]
        refine or_iff_right fun heq => ?_
        have := (Prod.mk.inj heq).1
        omega
      simp only [hmem, List.getElem?_cons_succ]
      exact ih hothers (fun entry hentry => hfirst entry hentry) htemplate
  | case4 position first rest done item others hdone ih =>
    have hlater : ∀ entry ∈ (done, item) :: others, position + 1 ≤ entry.1 := by
      have hlt : position < done :=
        Nat.lt_of_le_of_ne (hfrom _ List.mem_cons_self) fun heq => hdone (by simp [heq])
      intro entry hentry
      rcases List.mem_cons.mp hentry with rfl | hother
      · exact hlt
      · exact Nat.lt_trans hlt ((List.pairwise_cons.mp hsorted).1 entry hother)
    cases index with
    | zero =>
      obtain rfl := Option.some.inj htemplate
      refine .inr ⟨fun other hother => ?_, rfl⟩
      exact absurd (hlater _ hother) (Nat.lt_irrefl position)
    | succ index =>
      rw [show position + (index + 1) = position + 1 + index by omega]
      simp only [List.getElem?_cons_succ]
      exact ih hsorted hlater htemplate

private theorem pairwise_sorted {results : List (Nat × Item)} (h : (results.map Prod.fst).Nodup) :
    (results.reverse.mergeSort fun left right => left.1 ≤ right.1).Pairwise
      fun left right => left.1 < right.1 := by
  have hperm := (List.mergeSort_perm results.reverse fun left right => left.1 ≤ right.1).trans
    (List.reverse_perm results)
  have hdistinct := List.pairwise_map.mp ((hperm.map Prod.fst).nodup_iff.mpr h)
  have hordered := List.pairwise_mergeSort
    (fun (first second third : Nat × Item) (hfirst : decide (first.1 ≤ second.1) = true)
      (hsecond : decide (second.1 ≤ third.1) = true) => by
        simp only [decide_eq_true_eq] at hfirst hsecond ⊢
        omega)
    (fun first second => by
      simp only [Bool.or_eq_true, decide_eq_true_eq]
      omega)
    results.reverse
  refine (hordered.and hdistinct).imp fun {left right} hboth => ?_
  have := of_decide_eq_true hboth.1
  have := hboth.2
  omega

section

variable {σ : Type} {system : Files.FileSystem (StateM σ)} {job : Job}

theorem Visit.result_ne_cancelled (visit : Visit σ) (path : String) :
    (visit.result system job).1 ≠ .error (.cancelled path) := by
  rw [Visit.result, run_convert]
  dsimp only
  generalize ((system.read visit.template).run visit.before).1 = found
  cases found with
  | none => rintro ⟨⟩
  | some text =>
    rw [Job.converted]
    cases Conversion.ofTemplate text job.registry job.targets <;> rintro ⟨⟩

theorem Visit.Gives.cancelled_cases {visit : Visit σ} {writes : List (Write σ)} {path : String}
    (h : visit.Gives system job writes (.error (.cancelled path))) :
    visit.cancelled = true ∧ writes = [] := by
  cases h with
  | failed hresult => exact absurd hresult (visit.result_ne_cancelled path)
  | cancelled _ hflag => exact ⟨hflag, rfl⟩

theorem State.Finished.flatMap_eq_nil {α : Type} {state : State} (h : state.Finished)
    {f : Phase → List α} (hf : f .stopped = []) : state.workers.flatMap f = [] :=
  List.flatMap_eq_nil_iff.mpr fun phase hphase => by rw [h phase hphase, hf]

section

variable {cancelled : Bool} {start files : σ} {past : List (Event σ)} {state : State}
  (h : Accounts system job cancelled start past state files) (hfinished : state.Finished)

include h hfinished

theorem Accounts.perm_results :
    (state.results.map Prod.fst).Perm ((visitsOf past).map Visit.position) := by
  have hnone : state.workers.flatMap Phase.visited = [] := hfinished.flatMap_eq_nil rfl
  simpa [hnone] using h.handedIn

theorem Accounts.items_cases {position : Nat} {template : String}
    (htemplate : job.templates[position]? = some template) :
    (∃ item, Gave system job past position item ∧ (job.items state)[position]? = some item) ∨
      position ∉ (visitsOf past).map Visit.position ∧
        (job.items state)[position]? = some (.cancelled template) := by
  have hresults := h.perm_results hfinished
  have hmem : ∀ item, (position, item) ∈
        (state.results.reverse.mergeSort fun left right => left.1 ≤ right.1) ↔
      (position, item) ∈ state.results := fun item =>
    ((List.mergeSort_perm _ _).trans (List.reverse_perm _)).mem_iff
  have hcases := matchUp_cases (pairwise_sorted (hresults.nodup_iff.mpr h.nodup_positions))
    (fun _ _ => Nat.zero_le _) htemplate
  simp only [Nat.zero_add, hmem] at hcases
  rcases hcases with ⟨item, hentry, hitem⟩ | ⟨hnone, hitem⟩
  · exact .inl ⟨item, h.gave _ hentry, hitem⟩
  · refine .inr ⟨fun hposition => ?_, hitem⟩
    obtain ⟨entry, hentry, rfl⟩ := List.mem_map.mp (hresults.mem_iff.mpr hposition)
    exact hnone entry.2 hentry

theorem Accounts.map_template_items :
    (job.items state).map Item.template = job.templates := by
  refine List.ext_getElem? fun position => ?_
  rw [List.getElem?_map]
  cases htemplate : job.templates[position]? with
  | none =>
    have hlength : (job.items state).length = job.templates.length := length_matchUp _ _ _
    rw [List.getElem?_eq_none_iff] at htemplate
    rw [List.getElem?_eq_none_iff.mpr (by omega), Option.map_none]
  | some template =>
    rcases h.items_cases hfinished htemplate with
      ⟨item, ⟨visit, hvisit, rfl, hown, -⟩, hitem⟩ | ⟨-, hitem⟩
    · rw [hitem, ← htemplate, h.visited visit hvisit, hown]
      rfl
    · rw [hitem]
      rfl

theorem Accounts.mem_positions (hclear : ¬ Caused system job cancelled past) {position : Nat}
    (hposition : position < job.templates.length) :
    position ∈ (visitsOf past).map Visit.position := by
  obtain ⟨phase, hphase⟩ := List.exists_mem_of_ne_nil _ h.nonempty
  have hstopped : .stopped ∈ state.workers := hfinished phase hphase ▸ hphase
  have hall : job.templates.length ≤ state.next :=
    (h.stopped hstopped).resolve_left fun hcancelled => hclear (h.caused hcancelled)
  have hnone : state.workers.flatMap Phase.taken = [] := hfinished.flatMap_eq_nil rfl
  have hpositions := h.handedOut
  rw [hnone, List.nil_append, Nat.min_eq_right hall] at hpositions
  exact hpositions.mem_iff.mpr (List.mem_range.mpr hposition)

end

variable (system job)

/-- What the items and the files of a batch say of what happened to the files. -/
structure Reported (cancelled : Bool) (files : σ) (events : List (Event σ)) (items : List Item)
    (after : σ) : Prop where
  templates : items.map Item.template = job.templates
  once : ((visitsOf events).map Visit.position).Nodup
  own : ∀ visit ∈ visitsOf events, job.templates[visit.position]? = some visit.template
  /-- The events are all that touched the files. -/
  history : History system job files events after
  /-- The item of a template that was converted is what its conversion and its writes gave, and that
  of any other is cancelled. -/
  outcomes : ∀ position item, items[position]? = some item →
    Gave system job events position item ∨
      position ∉ (visitsOf events).map Visit.position ∧ item = .cancelled item.template
  /-- Of a template that is reported as cancelled nothing was published: it was read at most. -/
  unpublished : ∀ position item path, items[position]? = some item →
    item.outcome = .error (.cancelled path) → writesAt events position = [] ∧
      ∀ visit ∈ visitsOf events, visit.position = position →
        (visit.result system job).2 = ((system.read visit.template).run visit.before).2
  /-- Where the flag is clear at the start, and failures do not set it or there are none, each item
  is what its template gave with the flag clear. -/
  complete : cancelled = false →
    (job.failFast = false ∨ ∀ visit ∈ visitsOf events, visit.cancelled = false →
      ¬ visit.Failed system job events) →
    ∀ position item, items[position]? = some item →
      (∀ path, item.outcome ≠ .error (.cancelled path)) ∧
        ∃ visit ∈ visitsOf events, visit.position = position ∧ visit.template = item.template ∧
          visit.cancelled = false ∧ visit.Gives system job (writesAt events position) item.outcome

variable {system job}

theorem Accounts.reported {cancelled : Bool} {start files : σ} {past : List (Event σ)}
    {state : State} (h : Accounts system job cancelled start past state files)
    (hfinished : state.Finished) :
    Reported system job cancelled start past (job.items state) files := by
  have htemplates := h.map_template_items hfinished
  have hitems {position : Nat} {item : Item} (hitem : (job.items state)[position]? = some item) :
      Gave system job past position item ∨ position < job.templates.length ∧
        position ∉ (visitsOf past).map Visit.position ∧ item = .cancelled item.template := by
    have htemplate : job.templates[position]? = some item.template := by
      rw [← htemplates, List.getElem?_map, hitem, Option.map_some]
    rcases h.items_cases hfinished htemplate with ⟨other, hgave, hother⟩ | ⟨hnone, hother⟩
    · exact .inl (Option.some.inj (hitem.symm.trans hother) ▸ hgave)
    · exact .inr ⟨(List.getElem?_eq_some_iff.mp htemplate).1, hnone,
        Option.some.inj (hitem.symm.trans hother)⟩
  refine ⟨htemplates, h.nodup_positions, h.visited, h.history,
    fun position item hitem => (hitems hitem).imp_right And.right, ?_, ?_⟩
  · intro position item path hitem houtcome
    refine ⟨?_, fun visit _ _ => by rw [Visit.result, run_convert]⟩
    rcases hitems hitem with ⟨visit, -, -, -, hgives⟩ | ⟨-, hnone, -⟩
    · exact (houtcome ▸ hgives).cancelled_cases.2
    · exact h.history.writesAt_eq_nil hnone
  · intro hstart hcalm position item hitem
    have hclear : ¬ Caused system job cancelled past := by
      rintro (hcancelled | ⟨hfast, visit, hvisit, hflag, hfailed⟩)
      · simp [hstart] at hcancelled
      · rcases hcalm with hslow | hok
        · simp [hslow] at hfast
        · exact hok visit hvisit hflag hfailed
    rcases hitems hitem with ⟨visit, hvisit, hposition, htemplate, hgives⟩ | ⟨hlt, hnone, -⟩
    · have hflag : visit.cancelled = false :=
        Bool.eq_false_iff.mpr fun hflag => hclear (h.warned visit hvisit hflag)
      refine ⟨fun path houtcome => ?_, visit, hvisit, hposition, htemplate, hflag, hgives⟩
      simp [(houtcome ▸ hgives).cancelled_cases.1] at hflag
    · exact absurd (h.mem_positions hfinished hclear hlt) hnone

variable (system job)

theorem reported_of_finished {cancelled : Bool} {files : σ} {schedule : List Nat}
    (hfinished : ((job.steps system (job.start cancelled) schedule).run files).1.Finished) :
    Reported system job cancelled files (job.events system (job.start cancelled) files schedule)
      (job.items ((job.steps system (job.start cancelled) schedule).run files).1)
      ((job.steps system (job.start cancelled) schedule).run files).2 :=
  (accounts_events system job cancelled files schedule).reported hfinished

end

/-- However the workers take turns, a batch finishes once each has had enough of them, and what a
finished batch reports follows from what happened to the files alone. The batch in which each worker
finishes before the next one starts is one such. -/
theorem reported_any_schedule {σ : Type} (system : Files.FileSystem (StateM σ)) (job : Job)
    (cancelled : Bool) (files : σ) :
    (∀ schedule, job.Fair schedule →
      ((job.steps system (job.start cancelled) schedule).run files).1.Finished) ∧
    (∀ schedule, ((job.steps system (job.start cancelled) schedule).run files).1.Finished →
      Reported system job cancelled files (job.events system (job.start cancelled) files schedule)
        (job.items ((job.steps system (job.start cancelled) schedule).run files).1)
        ((job.steps system (job.start cancelled) schedule).run files).2) ∧
    Reported system job cancelled files
      (job.events system (job.start cancelled) files job.inTurn)
      ((job.run system cancelled).run files).1.1 ((job.run system cancelled).run files).2 := by
  refine ⟨fun schedule hfair => finished_of_fair system job hfair cancelled files,
    fun schedule hfinished => reported_of_finished system job hfinished, ?_⟩
  exact reported_of_finished system job
    (finished_of_fair system job (fair_inTurn job) cancelled files)

end Provision.Batch
