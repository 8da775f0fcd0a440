import Provision.Proofs.Binding.Lockstep
import Provision.Proofs.Binding.Program

/-!
# Variables are bound once

Where no variable reads itself, the value of a variable does not depend on the state in which it is
first read. So binding is the same as in a scope where all variables have their values beforehand,
but for the reports on variables, which come where each is first read.
-/

namespace Provision

theorem Node.variable_or_plain (node : Node) :
    (∃ name value, node = .variable name value) ∨ ∀ name value, node ≠ .variable name value := by
  cases node <;> simp

namespace Binding

/-! ## Scopes without a state -/

def recordedScope (registry : Schema.Registry) (symbols : Symbols) (values : Nat → Bound.Expr)
    (subject : String) : Scope :=
  { registry, symbols, subject, variableValue := fun position => pure (values position) }

def State.reportAll (state : State) (diagnostics : List Diagnostic) : State :=
  { state with diagnostics := state.diagnostics ++ diagnostics }

theorem State.reportAll_reportAll (state : State) (first second : List Diagnostic) :
    (state.reportAll first).reportAll second = state.reportAll (first ++ second) := by
  simp [State.reportAll]

def Yields {α : Type} (action : Bind α) (value : α) (reports : List Diagnostic) : Prop :=
  ∀ state, action.run state = (value, state.reportAll reports)

section

variable {α β : Type}

theorem yields_pure (value : α) : Yields (pure value) value [] := by
  intro state
  have hstate : state.reportAll [] = state := by simp [State.reportAll]
  rw [hstate]
  rfl

theorem yields_report (scope : Scope) (diagnostic : Diagnostic) :
    Yields (scope.report diagnostic) () [diagnostic.withSubject scope.subject] :=
  fun _ => rfl

theorem Yields.bind {action : Bind α} {next : α → Bind β} {value : α} {result : β}
    {first second : List Diagnostic} (h : Yields action value first)
    (hnext : Yields (next value) result second) :
    Yields (action >>= next) result (first ++ second) := by
  intro state
  calc
    (action >>= next).run state
      = (next (action.run state).1).run (action.run state).2 := rfl
    _ = (next value).run (state.reportAll first) := by rw [h state]
    _ = (result, state.reportAll (first ++ second)) := by
      rw [hnext, state.reportAll_reportAll]

theorem Yields.run_eq {action : Bind α} {value : α} {reports : List Diagnostic}
    (h : Yields action value reports) :
    (action.run {}).1 = value ∧ (action.run {}).2.diagnostics = reports := by
  rw [h]
  exact ⟨rfl, List.nil_append reports⟩

end

/-! ## States that agree with the values -/

section

variable (program : Program) (values : Nat → Bound.Expr) (problems : Nat → List Diagnostic)

/-- The variables under way are pending, and those that are done have their values. -/
structure Agrees (pending : List Nat) (state : State) : Prop where
  underWay : ∀ position, state.progress.lookup position = some .underWay → position ∈ pending
  done : ∀ position value, state.progress.lookup position = some (.done value) →
    value = values position

/-- From one state to another some variables have been bound, each with its problems, and besides
them something was reported. -/
structure Advances (bound : List Nat) (reports : List Diagnostic) (before after : State) :
    Prop where
  nodup : bound.Nodup
  isVariable : ∀ position ∈ bound, ∃ name value,
    program.nodes[position]? = some (.variable name value)
  new : ∀ position ∈ bound, before.progress.lookup position = none
  done : ∀ position ∈ bound, after.progress.lookup position = some (.done (values position))
  kept : ∀ position ∉ bound, after.progress.lookup position = before.progress.lookup position
  diagnostics : after.diagnostics.Perm (before.diagnostics ++ bound.flatMap problems ++ reports)

end

section

variable {program : Program} {values : Nat → Bound.Expr} {problems : Nat → List Diagnostic}
  {before middle after : State}

theorem Advances.agrees {bound pending : List Nat} {reports : List Diagnostic}
    (h : Advances program values problems bound reports before after)
    (hagrees : Agrees values pending before) : Agrees values pending after := by
  constructor
  · intro position hunderWay
    by_cases hbound : position ∈ bound
    · simp [h.done position hbound] at hunderWay
    · exact hagrees.underWay position (h.kept position hbound ▸ hunderWay)
  · intro position value hdone
    by_cases hbound : position ∈ bound
    · rw [h.done position hbound] at hdone
      exact (Progress.done.inj (Option.some.inj hdone)).symm
    · exact hagrees.done position value (h.kept position hbound ▸ hdone)

theorem advances_reportAll (state : State) (reports : List Diagnostic) :
    Advances program values problems [] reports state (state.reportAll reports) where
  nodup := List.nodup_nil
  isVariable := by simp
  new := by simp
  done := by simp
  kept _ _ := rfl
  diagnostics := by simp [State.reportAll]

theorem Advances.refl (state : State) : Advances program values problems [] [] state state := by
  have h : Advances program values problems [] [] state (state.reportAll []) :=
    advances_reportAll state []
  simpa [State.reportAll] using h

theorem Advances.trans {first second : List Nat} {reports reports' : List Diagnostic}
    (h : Advances program values problems first reports before middle)
    (h' : Advances program values problems second reports' middle after) :
    Advances program values problems (first ++ second) (reports ++ reports') before after := by
  -- What the first part has bound is done, so the second part does not bind it.
  have hdisjoint : ∀ position ∈ first, position ∉ second := by
    intro position hfirst hsecond
    have hnew := h'.new position hsecond
    simp [h.done position hfirst] at hnew
  constructor
  · exact List.nodup_append'.mpr ⟨h.nodup, h'.nodup, hdisjoint⟩
  · intro position hposition
    rcases List.mem_append.mp hposition with hfirst | hsecond
    · exact h.isVariable position hfirst
    · exact h'.isVariable position hsecond
  · intro position hposition
    rcases List.mem_append.mp hposition with hfirst | hsecond
    · exact h.new position hfirst
    · rw [← h.kept position fun hfirst => hdisjoint position hfirst hsecond]
      exact h'.new position hsecond
  · intro position hposition
    rcases List.mem_append.mp hposition with hfirst | hsecond
    · rw [h'.kept position (hdisjoint position hfirst)]
      exact h.done position hfirst
    · exact h'.done position hsecond
  · intro position hposition
    obtain ⟨hfirst, hsecond⟩ := not_or.mp (mt List.mem_append.mpr hposition)
    exact (h'.kept position hsecond).trans (h.kept position hfirst)
  · refine h'.diagnostics.trans (((h.diagnostics.append_right _).append_right _).trans ?_)
    simp only [List.append_assoc, List.flatMap_append]
    exact .append_left _ (.append_left _ (List.perm_append_comm_assoc reports _ reports'))

theorem Advances.finish {position : Nat} {bound : List Nat} {name : String} {value : Expr}
    (hnode : program.nodes[position]? = some (.variable name value))
    (hnew : before.progress.lookup position = none)
    (h : Advances program values problems bound (problems position)
      (before.mark position .underWay) after) :
    Advances program values problems (position :: bound) [] before
      (after.mark position (.done (values position))) := by
  have hself : position ∉ bound := by
    intro hbound
    simpa using h.new position hbound
  have hother : ∀ other ∈ bound, other ≠ position := by
    rintro other hbound rfl
    exact hself hbound
  constructor
  · exact List.nodup_cons.mpr ⟨hself, h.nodup⟩
  · exact List.forall_mem_cons.mpr ⟨⟨name, value, hnode⟩, h.isVariable⟩
  · refine List.forall_mem_cons.mpr ⟨hnew, fun other hbound => ?_⟩
    rw [← before.lookup_mark_of_ne .underWay (hother other hbound)]
    exact h.new other hbound
  · refine List.forall_mem_cons.mpr ⟨after.lookup_mark_self _ _, fun other hbound => ?_⟩
    rw [after.lookup_mark_of_ne _ (hother other hbound)]
    exact h.done other hbound
  · intro other hunbound
    obtain ⟨hne, hunbound⟩ := not_or.mp (mt List.mem_cons.mpr hunbound)
    rw [after.lookup_mark_of_ne _ hne, h.kept other hunbound, before.lookup_mark_of_ne _ hne]
  · refine h.diagnostics.trans ?_
    rw [List.flatMap_cons, List.append_nil, List.append_assoc]
    exact .append_left _ List.perm_append_comm

/-! ## Computations that bind variables on the way -/

/-- A computation does what another one does in a scope where all variables have their values, and
binds those that are new on the way. -/
def Mirrors (program : Program) (values : Nat → Bound.Expr) (problems : Nat → List Diagnostic)
    (pending : List Nat) (subject : String) (α : Type) (action recorded : Bind α) : Prop :=
  ∃ value reports, Yields recorded value reports ∧
    (∀ diagnostic ∈ reports, diagnostic.subject = some subject) ∧
    ∀ state, Agrees values pending state → ∃ bound, (action.run state).1 = value ∧
      Advances program values problems bound reports state (action.run state).2

variable {pending : List Nat} {subject : String}

private theorem mirrors_pure {α : Type} (value : α) :
    Mirrors program values problems pending subject α (pure value) (pure value) :=
  ⟨value, [], yields_pure value, by simp, fun state _ => ⟨[], rfl, .refl state⟩⟩

theorem Mirrors.bind {α β : Type} {action recorded : Bind α} {next next' : α → Bind β}
    (h : Mirrors program values problems pending subject α action recorded)
    (hnext : ∀ value,
      Mirrors program values problems pending subject β (next value) (next' value)) :
    Mirrors program values problems pending subject β (action >>= next) (recorded >>= next') := by
  obtain ⟨value, reports, hyields, hsubject, hruns⟩ := h
  obtain ⟨result, reports', hyields', hsubject', hruns'⟩ := hnext value
  refine ⟨result, reports ++ reports', hyields.bind hyields', ?_, fun state hagrees => ?_⟩
  · intro diagnostic hdiagnostic
    rcases List.mem_append.mp hdiagnostic with hmem | hmem
    · exact hsubject diagnostic hmem
    · exact hsubject' diagnostic hmem
  · obtain ⟨bound, hvalue, hadvances⟩ := hruns state hagrees
    obtain ⟨bound', hresult, hadvances'⟩ := hruns' _ (hadvances.agrees hagrees)
    have hrun : (action >>= next).run state = (next value).run (action.run state).2 := by
      rw [StateT.run_bind, ← hvalue]
      rfl
    rw [hrun]
    exact ⟨bound ++ bound', hresult, hadvances.trans hadvances'⟩

private theorem mirrors_report (left right : Scope) (hsubject : left.subject = right.subject)
    (diagnostic : Diagnostic) :
    Mirrors program values problems pending right.subject Unit (left.report diagnostic)
      (right.report diagnostic) := by
  refine ⟨(), _, yields_report right diagnostic, by simp [Diagnostic.withSubject], ?_⟩
  intro state _
  refine ⟨[], rfl, ?_⟩
  rw [← hsubject]
  exact advances_reportAll state _

theorem lockstep_recorded {registry : Schema.Registry} {symbols : Symbols} {depth : Nat}
    {name : String} {allowed : String → Prop}
    (hread : ∀ root position other inner, allowed root →
      symbols.lookup root = some (position, .variable other inner) →
      Mirrors program values problems pending name Bound.Expr
        (variableValue program registry symbols depth position) (pure (values position))) :
    Lockstep (Mirrors program values problems pending name)
      (variableScope program registry symbols depth name)
      (recordedScope registry symbols values name) allowed where
  pure := mirrors_pure
  bind := Mirrors.bind
  report := mirrors_report _ (recordedScope registry symbols values name) rfl
  registry := rfl
  unknown _ _ hlookup := hlookup
  known root position node hallowed hlookup := by
    refine ⟨position, node, hlookup, rfl, ?_⟩
    rintro other inner rfl
    exact hread root position other inner hallowed hlookup

end

/-! ## Reading variables -/

section

variable (program : Program) (registry : Schema.Registry)

def firstValue (position : Nat) : Bound.Expr :=
  ((variableValue program registry (symbolsOf program) (program.nodes.length + 1) position).run
    {}).1

def bindValue (name : String) (value : Expr) : Bind Bound.Expr :=
  bindExpr (recordedScope registry (symbolsOf program) (firstValue program registry) name) .any
    value

def problemsAt (position : Nat) : List Diagnostic :=
  match program.nodes[position]? with
  | some (.variable name value) => ((bindValue program registry name value).run {}).2.diagnostics
  | _ => []

end

/-- In every state that agrees with the values, the variable at a position is read as the value
that it has first of all, and done afterwards. -/
def ReadsFirst (program : Program) (registry : Schema.Registry) (position : Nat) : Prop :=
  ∀ depth pending state, Chain program pending position →
    program.nodes.length < pending.length + depth →
    Agrees (firstValue program registry) pending state →
    ∃ bound final,
      (variableValue program registry (symbolsOf program) depth position).run state =
        (firstValue program registry position, final) ∧
      Advances program (firstValue program registry) (problemsAt program registry) bound [] state
        final ∧
      final.progress.lookup position = some (.done (firstValue program registry position))

theorem Agrees.start {values : Nat → Bound.Expr} {pending : List Nat} {state : State}
    (h : Agrees values pending state) (position : Nat) :
    Agrees values (position :: pending) (state.mark position .underWay) := by
  constructor <;> intro other
  · by_cases hother : other = position
    · simp [hother]
    · rw [state.lookup_mark_of_ne _ hother]
      exact fun hunderWay => List.mem_cons_of_mem _ (h.underWay other hunderWay)
  · by_cases hother : other = position
    · simp [hother]
    · rw [state.lookup_mark_of_ne _ hother]
      exact h.done other

section

variable {program : Program} {registry : Schema.Registry} {position : Nat} {name : String}
  {value : Expr} (hnode : program.nodes[position]? = some (.variable name value))

section

variable (hreads : ∀ read, program.Reads position read → ReadsFirst program registry read)

include hnode hreads

theorem mirrors_bindValue {depth : Nat} {pending : List Nat}
    (hchain : Chain program pending position) (hnew : position ∉ pending)
    (hdepth : program.nodes.length < pending.length + (depth + 1)) :
    Mirrors program (firstValue program registry) (problemsAt program registry)
      (position :: pending) name Bound.Expr
      (bindExpr (variableScope program registry (symbolsOf program) depth name) .any value)
      (bindValue program registry name value) := by
  have hdepth' : program.nodes.length < (position :: pending).length + depth := by
    simp only [List.length_cons]
    omega
  have hnames : ∀ root ∈ value.roots, NamesOf program position root :=
    fun root hroot => ⟨name, value, hnode, hroot⟩
  refine (lockstep_recorded ?_).bindExpr .any value hnames
  rintro root read other inner ⟨outer, expr, hexpr, hroot⟩ hlookup
  have hdeclared := (lookup_symbols program root).symm.trans hlookup
  have hread := Program.Reads.of_root hexpr hroot hdeclared ⟨other, inner, rfl⟩
  refine ⟨firstValue program registry read, [], yields_pure _, by simp, fun state hagrees => ?_⟩
  obtain ⟨bound, final, hrun, hadvances, -⟩ :=
    hreads read hread depth _ state (hchain.cons hnew hread) hdepth' hagrees
  rw [hrun]
  exact ⟨bound, rfl, hadvances⟩

theorem run_bindValue :
    ((bindValue program registry name value).run {}).1 = firstValue program registry position := by
  have hchain : Chain program [] position := ⟨List.nodup_nil, by simp⟩
  have hdepth : program.nodes.length < ([] : List Nat).length + (program.nodes.length + 1) := by
    simp
  obtain ⟨bound, reports, hyields, -, hruns⟩ :=
    mirrors_bindValue hnode hreads hchain List.not_mem_nil hdepth
  have hstart : Agrees (firstValue program registry) [] {} := ⟨by simp, by simp⟩
  obtain ⟨-, hbound, -⟩ := hruns _ (hstart.start position)
  rw [hyields.run_eq.1, firstValue, variableValue_new _ _ _ (by simp) hnode]
  exact hbound.symm

private theorem readsFirst_of_reads (hacyclic : program.Acyclic) :
    ReadsFirst program registry position := by
  intro depth pending state hchain hdepth hagrees
  have hnew : position ∉ pending := fun hpending =>
    hacyclic position (hchain.reads position hpending)
  cases depth with
  | zero =>
    have hlength := hchain.length_le
    omega
  | succ depth =>
    cases hprogress : state.progress.lookup position with
    | none =>
      obtain ⟨bound, reports, hyields, -, hruns⟩ :=
        mirrors_bindValue hnode hreads hchain hnew hdepth
      obtain ⟨read, hbound, hadvances⟩ := hruns _ (hagrees.start position)
      have hvalue : bound = firstValue program registry position :=
        hyields.run_eq.1.symm.trans (run_bindValue hnode hreads)
      have hproblems : reports = problemsAt program registry position := by
        rw [problemsAt, hnode]
        exact hyields.run_eq.2.symm
      rw [hproblems] at hadvances
      refine ⟨position :: read, _, ?_, hadvances.finish hnode hprogress,
        State.lookup_mark_self _ _ _⟩
      rw [variableValue_new _ _ _ hprogress hnode, ← hvalue, ← hbound]
    | some progress =>
      cases progress with
      | underWay => exact absurd (hagrees.underWay position hprogress) hnew
      | done found =>
        obtain rfl := hagrees.done position found hprogress
        exact ⟨[], state, variableValue_done _ _ _ hprogress, .refl state, hprogress⟩

end

theorem readsFirst (hacyclic : program.Acyclic) {position : Nat} {name : String} {value : Expr}
    (hnode : program.nodes[position]? = some (.variable name value)) :
    ReadsFirst program registry position := by
  -- The induction is on what variables read.
  induction position using hacyclic.wellFounded.induction generalizing name value with
  | _ position ih =>
    refine readsFirst_of_reads hnode (fun read hread => ?_) hacyclic
    obtain ⟨other, inner, hvariable⟩ := Program.Reads.exists_variable hread
    exact ih read hread hvariable

theorem readsFirst_of_read (hacyclic : program.Acyclic) {reader read : Nat}
    (hread : program.Reads reader read) : ReadsFirst program registry read := by
  obtain ⟨name, value, hnode⟩ := Program.Reads.exists_variable hread
  exact readsFirst hacyclic hnode

end

/-! ## Declarations -/

def bindAlone (scope : Scope) : Node → Bind Bound.Node
  | .variable name value => do
    let value ← bindExpr scope .any value
    return ⟨name, .variable value⟩
  | node => bindNode scope 0 node

theorem bindAlone_plain (scope : Scope) {node : Node}
    (hplain : ∀ name value, node ≠ .variable name value) :
    bindAlone scope node = bindNode scope 0 node := by
  cases node with
  | «variable» name value => exact absurd rfl (hplain name value)
  | _ => rfl

theorem Lockstep.bindAlone {same : (α : Type) → Bind α → Bind α → Prop} {left right : Scope}
    {allowed : String → Prop} (lockstep : Lockstep same left right allowed)
    (hallowed : ∀ root, allowed root) (node : Node) :
    same Bound.Node (bindAlone left node) (bindAlone right node) := by
  rcases node.variable_or_plain with ⟨name, value, rfl⟩ | hplain
  · exact lockstep.bind (lockstep.bindExpr .any value fun root _ => hallowed root) fun _ =>
      lockstep.pure _
  · rw [bindAlone_plain left hplain, bindAlone_plain right hplain]
    exact lockstep.bindNode hallowed 0 0 node hplain

section

variable (program : Program) (registry : Schema.Registry)

def aloneIn (node : Node) : Bound.Node × State :=
  let scope := recordedScope registry (symbolsOf program) (firstValue program registry) node.name
  (bindAlone scope node).run {}

/-- What binding a declaration reports in its place: the problems of a variable belong to the first
reading. -/
def reportsInPlace : Node → List Diagnostic
  | .variable .. => []
  | node => (aloneIn program registry node).2.diagnostics

end

section

variable {program : Program} {registry : Schema.Registry} (hacyclic : program.Acyclic)

include hacyclic

theorem aloneIn_variable {position : Nat} {name : String} {value : Expr}
    (hnode : program.nodes[position]? = some (.variable name value)) :
    (aloneIn program registry (.variable name value)).1 =
      ⟨name, .variable (firstValue program registry position)⟩ ∧
    (aloneIn program registry (.variable name value)).2.diagnostics =
      problemsAt program registry position := by
  constructor
  · rw [← run_bindValue hnode fun _ => readsFirst_of_read hacyclic]
    rfl
  · rw [problemsAt, hnode]
    rfl

theorem lockstep_programScope (name : String) :
    Lockstep (Mirrors program (firstValue program registry) (problemsAt program registry) [] name)
      (programScope program registry (symbolsOf program) name)
      (recordedScope registry (symbolsOf program) (firstValue program registry) name)
      fun _ => True := by
  refine lockstep_recorded fun root position other inner _ hlookup => ?_
  have hdeclared := (lookup_symbols program root).symm.trans hlookup
  have hnode := Program.getElem?_of_declaration? hdeclared
  refine ⟨firstValue program registry position, [], yields_pure _, by simp, fun state h => ?_⟩
  obtain ⟨bound, final, hrun, hadvances, -⟩ :=
    readsFirst hacyclic hnode (program.nodes.length + 1) [] state ⟨List.nodup_nil, by simp⟩
      (by simp) h
  rw [hrun]
  exact ⟨bound, rfl, hadvances⟩

section

variable {position : Nat} {node : Node} {state : State}
  (hagrees : Agrees (firstValue program registry) [] state)

include hagrees

private theorem run_bindNode_plain (hplain : ∀ name value, node ≠ .variable name value) :
    ∃ bound final,
      (bindNode (programScope program registry (symbolsOf program) node.name) position node).run
        state = ((aloneIn program registry node).1, final) ∧
      Advances program (firstValue program registry) (problemsAt program registry) bound
        (reportsInPlace program registry node) state final := by
  obtain ⟨value, reports, hyields, -, hruns⟩ :=
    (lockstep_programScope hacyclic node.name).bindNode (fun _ => trivial) position 0 node hplain
  obtain ⟨bound, hvalue, hadvances⟩ := hruns state hagrees
  have halone : (aloneIn program registry node).1 = value ∧
      reportsInPlace program registry node = reports := by
    cases node with
    | «variable» name value => exact absurd rfl (hplain name value)
    | _ => exact hyields.run_eq
  rw [halone.1, halone.2, ← hvalue]
  exact ⟨bound, _, rfl, hadvances⟩

private theorem run_bindNode (hnode : program.nodes[position]? = some node) :
    ∃ bound final,
      (bindNode (programScope program registry (symbolsOf program) node.name) position node).run
        state = ((aloneIn program registry node).1, final) ∧
      Advances program (firstValue program registry) (problemsAt program registry) bound
        (reportsInPlace program registry node) state final ∧
      ∀ name value, node = .variable name value →
        final.progress.lookup position = some (.done (firstValue program registry position)) := by
  rcases node.variable_or_plain with ⟨name, value, rfl⟩ | hplain
  · obtain ⟨bound, final, hrun, hadvances, hdone⟩ :=
      readsFirst hacyclic hnode (program.nodes.length + 1) [] state ⟨List.nodup_nil, by simp⟩
        (by simp) hagrees
    refine ⟨bound, final, ?_, hadvances, fun _ _ _ => hdone⟩
    have hbind : (bindNode (programScope program registry (symbolsOf program) name) position
        (.variable name value)).run state =
          let read := (variableValue program registry (symbolsOf program)
            (program.nodes.length + 1) position).run state
          (⟨name, .variable read.1⟩, read.2) := rfl
    rw [Node.name, hbind, hrun, (aloneIn_variable hacyclic hnode).1]
  · obtain ⟨bound, final, hrun, hadvances⟩ := run_bindNode_plain hacyclic hagrees hplain
    exact ⟨bound, final, hrun, hadvances, fun name value h => absurd h (hplain name value)⟩

end

omit hacyclic in
theorem Advances.lookup_done {values : Nat → Bound.Expr} {problems : Nat → List Diagnostic}
    {bound : List Nat} {reports : List Diagnostic} {before after : State} {position : Nat}
    {value : Bound.Expr} (h : Advances program values problems bound reports before after)
    (hdone : before.progress.lookup position = some (.done value)) :
    after.progress.lookup position = some (.done value) := by
  rw [← hdone]
  refine h.kept position fun hbound => ?_
  simp [h.new position hbound] at hdone

theorem run_bindNodes (subject : String) (entries : List (Node × Nat)) {state : State}
    (hentries : ∀ entry ∈ entries, program.nodes[entry.2]? = some entry.1)
    (hagrees : Agrees (firstValue program registry) [] state) :
    ∃ bound final,
      (bindNodes (programScope program registry (symbolsOf program) subject) entries).run state =
        (entries.map fun entry => (aloneIn program registry entry.1).1, final) ∧
      Advances program (firstValue program registry) (problemsAt program registry) bound
        (entries.flatMap fun entry => reportsInPlace program registry entry.1) state final ∧
      ∀ entry ∈ entries, ∀ name value, entry.1 = .variable name value →
        final.progress.lookup entry.2 = some (.done (firstValue program registry entry.2)) := by
  induction entries generalizing state with
  | nil => exact ⟨[], state, rfl, .refl state, by simp⟩
  | cons entry rest ih =>
    obtain ⟨hnode, hrest⟩ := List.forall_mem_cons.mp hentries
    obtain ⟨bound, middle, hrun, hadvances, hdone⟩ := run_bindNode hacyclic hagrees hnode
    obtain ⟨bound', final, hrun', hadvances', hdone'⟩ := ih hrest (hadvances.agrees hagrees)
    refine ⟨bound ++ bound', final, ?_, hadvances.trans hadvances', ?_⟩
    · have hbind : (bindNodes (programScope program registry (symbolsOf program) subject)
          (entry :: rest)).run state =
            let first := (bindNode (programScope program registry (symbolsOf program)
              entry.1.name) entry.2 entry.1).run state
            let others := (bindNodes (programScope program registry (symbolsOf program) subject)
              rest).run first.2
            (first.1 :: others.1, others.2) := rfl
      rw [hbind, hrun, List.map_cons]
      simp only [hrun']
    · refine List.forall_mem_cons.mpr ⟨fun name value h => ?_, hdone'⟩
      exact hadvances'.lookup_done (hdone name value h)

end

end Binding

end Provision
