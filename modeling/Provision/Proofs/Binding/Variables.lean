import Provision.Proofs.Binding.Flatness

/-!
# Binding variables

A variable is bound where it is first read, so the variables under way form a chain in which each
reads the next. A variable met again on that chain is cyclic; any other read finds the value that
stays recorded from then on.
-/

namespace Provision.Binding

def State.mark (state : State) (position : Nat) (progress : Progress) : State :=
  { state with progress := (position, progress) :: state.progress }

@[simp] theorem State.lookup_mark_self (state : State) (position : Nat) (progress : Progress) :
    (state.mark position progress).progress.lookup position = some progress := by
  simp [State.mark]

variable {position : Nat}

theorem State.lookup_mark_of_ne (state : State) {other : Nat} (progress : Progress)
    (h : other ≠ position) :
    (state.mark position progress).progress.lookup other = state.progress.lookup other := by
  have hbeq : (other == position) = false := by simpa using h
  simp [State.mark, List.lookup_cons, hbeq]

theorem State.extends_mark (state : State) (position : Nat) (progress : Progress)
    (h : ∀ value, state.progress.lookup position ≠ some (.done value)) :
    state.Extends (state.mark position progress) := by
  refine ⟨fun _ hmem => hmem, fun other value hdone => ?_⟩
  have hne : other ≠ position := by
    rintro rfl
    exact h value hdone
  rwa [state.lookup_mark_of_ne progress hne]

def Known (program : Program) (state : State) (position : Nat) (ty : Ty) : Prop :=
  (∃ value, state.progress.lookup position = some (.done value) ∧ value.ty = ty) ∨
    (program.Cyclic position ∧ ty = .any)

theorem Known.mono {program : Program} {before after : State} (hextends : before.Extends after)
    (position : Nat) (ty : Ty) (h : Known program before position ty) :
    Known program after position ty := by
  rcases h with ⟨value, hdone, hty⟩ | hcyclic
  · exact .inl ⟨value, hextends.done position value hdone, hty⟩
  · exact .inr hcyclic

def NamesOf (program : Program) (position : Nat) (root : String) : Prop :=
  ∃ name value, program.nodes[position]? = some (.variable name value) ∧ root ∈ value.roots

def Found (program : Program) (registry : Schema.Registry) (symbols : Symbols) (state : State)
    (position : Nat) (value : Bound.Expr) : Prop :=
  ∃ name declared, program.nodes[position]? = some (.variable name declared) ∧
    Elaborates registry symbols (Known program state) (state.Reported name) .any declared value

/-- Between two steps: the variables under way are the pending ones, and every value that is
recorded was found and has a type that is hereditary in all ways under its outer mark, and tidy
unless an error was reported. -/
structure Consistent (program : Program) (registry : Schema.Registry) (symbols : Symbols)
    (pending : List Nat) (state : State) : Prop where
  underWay : ∀ position, state.progress.lookup position = some .underWay ↔ position ∈ pending
  done : ∀ position value, state.progress.lookup position = some (.done value) →
    Found program registry symbols state position value
  hereditary : ∀ property, Ty.Hereditary property → ∀ position value,
    state.progress.lookup position = some (.done value) → property value.ty.withoutEventual
  tidy : hasErrors state.diagnostics = false → ∀ position value,
    state.progress.lookup position = some (.done value) → value.ty.tidy = true

section

variable {program : Program} {registry : Schema.Registry} {symbols : Symbols}
  {pending : List Nat} {state : State} {value : Bound.Expr}

theorem Found.mono {after : State} (hextends : state.Extends after)
    (h : Found program registry symbols state position value) :
    Found program registry symbols after position value := by
  obtain ⟨name, declared, hnode, h⟩ := h
  exact ⟨name, declared, hnode, h.mono (Known.mono hextends) (hextends.reported name)⟩

theorem Found.sound (h : Found program registry symbols state position value) :
    Sound registry symbols (NamesOf program position) (Known program) state value := by
  obtain ⟨name, declared, hnode, h⟩ := h
  exact h.sound rfl fun root hroot => ⟨name, declared, hnode, hroot⟩

theorem Consistent.hereditary_of_known (h : Consistent program registry symbols pending state)
    {property : Ty → Prop} (hproperty : Ty.Hereditary property) (position : Nat) (ty : Ty)
    (hknown : Known program state position ty) : property ty.withoutEventual := by
  rcases hknown with ⟨value, hdone, rfl⟩ | ⟨-, rfl⟩
  · exact h.hereditary property hproperty position value hdone
  · exact hproperty.bare rfl

theorem Consistent.flat_of_known (h : Consistent program registry symbols pending state)
    (position : Nat) (ty : Ty) (hknown : Known program state position ty) : ty.flat = true :=
  h.hereditary_of_known Ty.hereditary_plain position ty hknown

theorem Consistent.tidy_of_known (h : Consistent program registry symbols pending state)
    (hclean : hasErrors state.diagnostics = false) (position : Nat) (ty : Ty)
    (hknown : Known program state position ty) : ty.tidy = true := by
  rcases hknown with ⟨value, hdone, rfl⟩ | ⟨-, rfl⟩
  · exact h.tidy hclean position value hdone
  · rfl

theorem Consistent.report (h : Consistent program registry symbols pending state)
    (diagnostic : Diagnostic) :
    Consistent program registry symbols pending (state.report diagnostic) := by
  have hextends := state.extends_report diagnostic
  exact ⟨h.underWay, fun position value hdone => (h.done position value hdone).mono hextends,
    h.hereditary, fun hclean => h.tidy (hextends.clean hclean)⟩

theorem Consistent.start (h : Consistent program registry symbols pending state)
    (hnew : state.progress.lookup position = none) :
    Consistent program registry symbols (position :: pending)
      (state.mark position .underWay) := by
  have hextends := state.extends_mark position .underWay (by simp [hnew])
  have hold : ∀ other value,
      (state.mark position .underWay).progress.lookup other = some (.done value) →
        state.progress.lookup other = some (.done value) := by
    intro other value hdone
    by_cases hother : other = position
    · simp [hother] at hdone
    · rwa [state.lookup_mark_of_ne .underWay hother] at hdone
  constructor
  · intro other
    by_cases hother : other = position
    · simp [hother]
    · simp [state.lookup_mark_of_ne .underWay hother, h.underWay, hother]
  · exact fun other value hdone => (h.done other value (hold other value hdone)).mono hextends
  · exact fun property hproperty other value hdone =>
      h.hereditary property hproperty other value (hold other value hdone)
  · exact fun hclean other value hdone => h.tidy hclean other value (hold other value hdone)

theorem Consistent.finish (h : Consistent program registry symbols (position :: pending) state)
    (hnew : position ∉ pending) (hfound : Found program registry symbols state position value) :
    state.Extends (state.mark position (.done value)) ∧
      Consistent program registry symbols pending (state.mark position (.done value)) := by
  have hunderWay := (h.underWay position).mpr (by simp)
  have hextends := state.extends_mark position (.done value) (by simp [hunderWay])
  have hcases : ∀ other found,
      (state.mark position (.done value)).progress.lookup other = some (.done found) →
        (other = position ∧ found = value) ∨
          state.progress.lookup other = some (.done found) := by
    intro other found hdone
    by_cases hother : other = position
    · subst hother
      simp only [State.lookup_mark_self, Option.some.injEq, Progress.done.injEq] at hdone
      exact .inl ⟨rfl, hdone.symm⟩
    · rw [state.lookup_mark_of_ne _ hother] at hdone
      exact .inr hdone
  refine ⟨hextends, fun other => ?_, fun other found hdone => ?_,
    fun property hproperty other found hdone => ?_, fun hclean other found hdone => ?_⟩
  · by_cases hother : other = position
    · simp [hother, hnew]
    · simp [state.lookup_mark_of_ne _ hother, h.underWay, hother]
  · rcases hcases other found hdone with ⟨rfl, rfl⟩ | hdone
    · exact hfound.mono hextends
    · exact (h.done other found hdone).mono hextends
  · rcases hcases other found hdone with ⟨rfl, rfl⟩ | hdone
    · obtain ⟨name, declared, -, helaborates⟩ := hfound
      exact helaborates.hereditary hproperty (h.hereditary_of_known hproperty) rfl found
        (Bound.Expr.self_mem_subexprs found)
    · exact h.hereditary property hproperty other found hdone
  · rcases hcases other found hdone with ⟨rfl, rfl⟩ | hdone
    · exact tidy_of_rules (h.tidy_of_known hclean) (hfound.sound.rules hclean) found
        (Bound.Expr.self_mem_subexprs found)
    · exact h.tidy hclean other found hdone

end

/-- The variables under way when one is read: each reads on to it. -/
structure Chain (program : Program) (pending : List Nat) (position : Nat) : Prop where
  nodup : pending.Nodup
  reads : ∀ reader ∈ pending, Relation.TransGen program.Reads reader position

theorem Chain.length_le {program : Program} {pending : List Nat}
    (h : Chain program pending position) : pending.length ≤ program.nodes.length := by
  have hsubset : pending ⊆ List.range program.nodes.length := by
    intro reader hreader
    obtain ⟨read, hread, -⟩ := Relation.TransGen.head'_iff.mp (h.reads reader hreader)
    exact List.mem_range.mpr hread.lt_length
  have hlength := (h.nodup.subperm hsubset).length_le
  rwa [List.length_range] at hlength

theorem Chain.cons {program : Program} {pending : List Nat} {read : Nat}
    (h : Chain program pending position) (hnew : position ∉ pending)
    (hread : program.Reads position read) : Chain program (position :: pending) read := by
  refine ⟨List.nodup_cons.mpr ⟨hnew, h.nodup⟩, fun reader hreader => ?_⟩
  rcases List.mem_cons.mp hreader with rfl | hreader
  · exact .single hread
  · exact (h.reads reader hreader).tail hread

variable {depth : Nat}

section

variable (program : Program) (registry : Schema.Registry) (symbols : Symbols)

def variableScope (depth : Nat) (name : String) : Scope :=
  { registry, symbols, subject := name
    variableValue := variableValue program registry symbols depth }

variable {state : State}

theorem variableValue_done {value : Bound.Expr}
    (h : state.progress.lookup position = some (.done value)) :
    (variableValue program registry symbols (depth + 1) position).run state = (value, state) := by
  rw [variableValue]
  simp only [StateT.run_bind, StateT.run_get, pure_bind, h]
  rfl

private theorem variableValue_underWay (h : state.progress.lookup position = some .underWay) :
    (variableValue program registry symbols (depth + 1) position).run state =
      (.error .any, state) := by
  rw [variableValue]
  simp only [StateT.run_bind, StateT.run_get, pure_bind, h]
  rfl

theorem variableValue_new {name : String} {value : Expr}
    (h : state.progress.lookup position = none)
    (hnode : program.nodes[position]? = some (.variable name value)) :
    (variableValue program registry symbols (depth + 1) position).run state =
      let bound := (bindExpr (variableScope program registry symbols depth name) .any value).run
        (state.mark position .underWay)
      (bound.1, bound.2.mark position (.done bound.1)) := by
  rw [variableValue]
  simp only [StateT.run_bind, StateT.run_get, pure_bind, h, hnode]
  rfl

variable {program registry symbols}
  (hsymbols : ∀ root, symbols.lookup root = program.declaration? root)

include hsymbols

private theorem tracks_variableScope {pending : List Nat} (name : String)
    (hread : ∀ read other inner state, program.nodes[read]? = some (.variable other inner) →
      program.Reads position read →
      Ensures (Consistent program registry symbols pending)
        (variableValue program registry symbols depth read) state
        fun bound after => Known program after read bound.ty) :
    Tracks (variableScope program registry symbols depth name)
      (Consistent program registry symbols pending) (NamesOf program position)
      (Known program) where
  report _ diagnostic h := h.report diagnostic
  mono _ _ position ty hextends := Known.mono hextends position ty
  read root read other inner state hallowed hlookup := by
    obtain ⟨outer, expr, hnode, hroot⟩ := hallowed
    have hdeclared : program.declaration? root = some (read, .variable other inner) := by
      rw [← hsymbols]
      exact hlookup
    exact hread read other inner state (Program.getElem?_of_declaration? hdeclared)
      (Program.Reads.of_root hnode hroot hdeclared ⟨other, inner, rfl⟩)

theorem ensures_variableValue {pending : List Nat} {name : String} {value : Expr}
    (hnode : program.nodes[position]? = some (.variable name value))
    (hchain : Chain program pending position)
    (hdepth : program.nodes.length < pending.length + depth) :
    Ensures (Consistent program registry symbols pending)
      (variableValue program registry symbols depth position) state fun bound after =>
        after.progress.lookup position = some (.done bound) ∨
          (position ∈ pending ∧ program.Cyclic position ∧ bound = .error .any) := by
  induction depth generalizing pending position name value state with
  | zero =>
    have hlength := hchain.length_le
    omega
  | succ depth ih =>
    intro hinv
    cases hprogress : state.progress.lookup position with
    | some progress =>
      cases progress with
      | done bound =>
        rw [variableValue_done program registry symbols hprogress]
        exact ⟨.refl state, hinv, .inl hprogress⟩
      | underWay =>
        have hpending := (hinv.underWay position).mp hprogress
        rw [variableValue_underWay program registry symbols hprogress]
        exact ⟨.refl state, hinv, .inr ⟨hpending, hchain.reads position hpending, rfl⟩⟩
    | none =>
      have hnew : position ∉ pending := by
        intro hpending
        simp [(hinv.underWay position).mpr hpending] at hprogress
      -- The variables that this one names are read with it on the chain.
      have htracks : Tracks (variableScope program registry symbols depth name)
          (Consistent program registry symbols (position :: pending))
          (NamesOf program position) (Known program) := by
        refine tracks_variableScope hsymbols name fun read other inner after hread hreads => ?_
        refine (ih hread (hchain.cons hnew hreads) ?_).weaken fun bound final h => ?_
        · rw [List.length_cons]
          omega
        · rcases h with hdone | ⟨-, hcyclic, rfl⟩
          · exact .inl ⟨bound, hdone, rfl⟩
          · exact .inr ⟨hcyclic, rfl⟩
      obtain ⟨hextends, hinv', hbinds⟩ := ensures_bindExpr htracks value
        (fun root hroot => ⟨name, value, hnode, hroot⟩) (hinv.start hprogress)
      obtain ⟨hextends', hinv''⟩ := hinv'.finish hnew ⟨name, value, hnode, hbinds⟩
      rw [variableValue_new program registry symbols hprogress hnode]
      refine ⟨?_, hinv'', .inl (State.lookup_mark_self _ _ _)⟩
      exact (state.extends_mark position .underWay (by simp [hprogress])).trans
        (hextends.trans hextends')

end

end Provision.Binding
