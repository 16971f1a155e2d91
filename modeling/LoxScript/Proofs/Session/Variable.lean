import LoxScript.Proofs.Session.State

/-!
# Variables of a session

Which variables hold no value, and what an assignment does to the names that are bound, in every state that a session
comes to.
-/

namespace LoxScript

theorem Run.evaluate_var (iterations depth : Nat) (x : Name) (ref : Binding) (m : Machine) :
    Run.evaluate iterations (depth + 1) (.var x ref) m = Run.access (m.heap.frames.lookUp m.chain x ref) m := by
  rw [← Run.lookUp_eq]
  rfl

/-- A name that is tied to a scope is declared there. Only in the innermost scope its initializer may be under way. -/
theorem Context.Ready.tied {Γ : Context} (ready : Γ.Ready) {name : String} {ref : Binding}
    (tied : ref = .ofScopes name Γ.scopes) :
    ref = .global ∨ (∃ d scope, ref = .scoped d ∧ Γ.scopes[d]? = some scope ∧ scope.find? name = some true) ∨
      ref = .scoped 0 ∧ ∃ scope outer, Γ.scopes = scope :: outer ∧ scope.find? name = some false := by
  unfold Binding.ofScopes at tied
  cases found : distance? name Γ.scopes with
  | none =>
      rw [found] at tied
      exact .inl tied
  | some d =>
      rw [found] at tied
      obtain ⟨scope, here, contains⟩ := distance?_eq_some found
      obtain ⟨passed, declared⟩ := Option.isSome_iff_exists.1 contains
      cases passed with
      | true => exact .inr (.inl ⟨d, scope, tied, here, declared⟩)
      | false =>
          cases d with
          | zero =>
              obtain ⟨outer, scopes⟩ := List.head?_eq_some_iff.1 (List.head?_eq_getElem?.trans here)
              exact .inr (.inr ⟨tied, scope, outer, scopes, declared⟩)
          | succ d =>
              have further : scope ∈ Γ.scopes.tail := by
                refine List.mem_of_getElem? (i := d) ?_
                rw [List.getElem?_tail, here]
              cases ready.passed scope further name false declared

namespace Session

variable {programs : List (List (Stmt Unit))} {s t : Session} {source : String} {n : Node Binding} {m : Machine}
  {F G : Frames} {id : FrameId} {name : String}

/-! ## Variables without a value -/

/-- A slot is written, with these frames, by a piece that a reached session comes to while it runs a text. Which session
and which text may be meant is given. -/
def Makes (past : Session → String → Prop) (F : Frames) (id : FrameId) (name : String) (slot : Slot) : Prop :=
  ∃ programs s source n m, Reached programs s ∧ past s source ∧ s.ComesTo source n m ∧ n.Writes m F id name slot

/-- A session, running a text, has come to a declaration of the variable that gives it no value, and nothing that was
written since was written to the variable. -/
def LeftUnset (past : Session → String → Prop) (F : Frames) (id : FrameId) (name : String) : Prop :=
  ∃ programs s source line outer m, Reached programs s ∧ past s source ∧
    s.ComesTo source (.stmt (.var ⟨name, line⟩ none)) m ∧ m.chain = id :: outer ∧
    Frames.Keeps (Makes past) id name (m.heap.frames.define id name .uninitialized) F

section LeftUnset

variable {past past' : Session → String → Prop}

theorem Makes.mono (hpast : ∀ s source, past s source → past' s source) {slot : Slot}
    (h : Makes past F id name slot) : Makes past' F id name slot := by
  obtain ⟨programs, s, source, n, m, reached, before, comes, writes⟩ := h
  exact ⟨programs, s, source, n, m, reached, hpast s source before, comes, writes⟩

theorem keeps_mono (hpast : ∀ s source, past s source → past' s source)
    (keeps : Frames.Keeps (Makes past) id name F G) : Frames.Keeps (Makes past') id name F G :=
  keeps.mono fun _ w h => ⟨w.permitted_mono (fun _ _ _ => Makes.mono hpast) h.1, h.2⟩

theorem LeftUnset.later (h : LeftUnset past F id name) (hpast : ∀ s source, past s source → past' s source)
    (keeps : Frames.Keeps (Makes past') id name F G) : LeftUnset past' G id name := by
  obtain ⟨programs, s, source, line, outer, m, reached, before, comes, inside, kept⟩ := h
  exact ⟨programs, s, source, line, outer, m, reached, hpast s source before, comes, inside,
    (keeps_mono hpast kept).trans keeps⟩

/-- What holds of the variables without a value before a text runs holds while it runs and afterwards. -/
theorem Reached.leftUnset_of_changes (reached : Reached programs s) {program : List (Stmt Unit)}
    (accepted : Accepted source program)
    (before : ∀ id name, s.machine.heap.frames.Unset id name → LeftUnset past s.machine.heap.frames id name)
    (changes : Frames.Changes
      (fun F w => w.Permitted (s.machine.Makes s.limits (Stmt.resolveProgram program).value) F)
      s.machine.heap.frames F)
    (hpast : ∀ s source, past s source → past' s source) (now : past' s source) (unset : F.Unset id name) :
    LeftUnset past' F id name := by
  have made : ∀ {F id name slot}, s.machine.Makes s.limits (Stmt.resolveProgram program).value F id name slot →
      Makes past' F id name slot := by
    intro F id name slot writes
    obtain ⟨n, m, comes, writes⟩ := writes
    exact ⟨programs, s, source, n, m, reached, now, ⟨program, accepted, comes⟩, writes⟩
  have kept : ∀ {G}, Frames.Keeps (s.machine.Makes s.limits (Stmt.resolveProgram program).value) id name G F →
      Frames.Keeps (Makes past') id name G F :=
    fun keeps => keeps.mono fun _ w h => ⟨w.permitted_mono (fun _ _ _ => made) h.1, h.2⟩
  rcases changes.unset unset with ⟨first, keeps⟩ | ⟨_, ⟨_, m, comes, writes⟩, keeps⟩
  · exact (before id name first).later hpast (kept keeps)
  · -- Only a declaration writes no value.
    cases writes with
    | unset inside => exact ⟨programs, s, source, _, _, m, reached, now, ⟨program, accepted, comes⟩, inside, kept keeps⟩

end LeftUnset

/-- A text that is not run leaves the variables as they are. -/
theorem LeftUnset.skip (h : s.machine.heap.frames.Unset id name →
      LeftUnset (fun s' source' => s'.Ran source' s) s.machine.heap.frames id name)
    (same : (s.run source).1.machine = s.machine) (unset : (s.run source).1.machine.heap.frames.Unset id name) :
    LeftUnset (fun s' source' => s'.Ran source' (s.run source).1) (s.run source).1.machine.heap.frames id name := by
  rw [same] at unset ⊢
  exact (h unset).later (fun _ _ ran => .before source ran) (.refl _)

theorem Reached.leftUnset (reached : Reached programs t) (unset : t.machine.heap.frames.Unset id name) :
    LeftUnset (fun s source => s.Ran source t) t.machine.heap.frames id name := by
  induction reached generalizing id name with
  | start showTree limits clock =>
      have held := (Lockstep.find?_start unset).2.2
      cases held
  | @accepted programs s source program reached accepted ih =>
      rcases s.run_machine source with same | ⟨other, accepted', ran⟩
      · exact .skip ih same unset
      · obtain rfl := accepted.unique accepted'
        have changes := s.machine.changes_run s.limits (Stmt.resolveProgram program).value
        have frames : (s.run source).1.machine.heap.frames =
            (s.machine.run s.limits (Stmt.resolveProgram program).value).2.heap.frames := by rw [ran]
        rw [← frames] at changes
        exact reached.leftUnset_of_changes accepted (fun _ _ => ih) changes (fun _ _ => .before source) .last unset
  | @rejected programs s source _ rejected ih =>
      rcases s.run_machine source with same | ⟨program, accepted, _⟩
      · exact .skip ih same unset
      · exact absurd accepted (rejected program)
  | console console _ ih => exact (ih unset).later (fun _ _ ran => .console console ran) (.refl _)

theorem Reached.leftUnset_state (reached : Reached programs t) {running : Option String}
    (state : t.State running m) (unset : m.heap.frames.Unset id name) :
    LeftUnset (fun s source => s.Ran source t ∨ s = t ∧ running = some source) m.heap.frames id name := by
  cases state with
  | between => exact (reached.leftUnset unset).later (fun _ _ => .inl) (.refl _)
  | @during source n m comes =>
      obtain ⟨program, accepted, comes⟩ := comes
      exact reached.leftUnset_of_changes accepted (fun _ _ => reached.leftUnset) comes.changes (fun _ _ => .inl)
        (.inr ⟨rfl, rfl⟩) unset

/-- The machine never binds its own variables to no value. -/
theorem Reached.not_unset_keyword (reached : Reached programs t) {running : Option String}
    (state : t.State running m) (id : FrameId) (k : Keyword) : ¬ m.heap.frames.Unset id k.text := by
  intro unset
  obtain ⟨_, _, _, line, _, _, reached', _, ⟨_, accepted, comes⟩, _, _⟩ := reached.leftUnset_state state unset
  obtain ⟨_, ⟨declaration, _⟩, _⟩ := reached'.stands accepted comes
  cases declaration with
  | var _ declarable _ => exact declarable.identifier.ne_keyword k rfl

/-- In every state that a session comes to, a variable holds no value only if a text that the session has run, or is
running, came to a declaration of it without an initializer, in what was the innermost frame then, and if it was not
written since: the writes from there to the present state are those of assignments and declarations that these texts
came to, and none of them is to the variable. It is never a variable that the machine itself binds and reads without a
check. Every read of it fails with an error that names it, by name where it is the nearest of its name, and through
every reference that is tied to it, whatever frames lie further out and whose environment is used. What a read gives is
a value that a variable of the name holds; arguments, results, fields and what is printed are values by their type. -/
theorem Reached.uninitialized_confined (reached : Reached programs t) {running : Option String}
    (state : t.State running m) :
    (∀ chain distance, m.heap.frames.slotAt chain distance Keyword.thisWord.text ≠ .ok .uninitialized ∧
      m.heap.frames.slotAt chain distance Keyword.superWord.text ≠ .ok .uninitialized) ∧
    (∀ id name, m.heap.frames.Unset id name →
      (∃ s source line outer m₁, (s.Ran source t ∨ s = t ∧ running = some source) ∧
        s.ComesTo source (.stmt (.var ⟨name, line⟩ none)) m₁ ∧ m₁.chain = id :: outer ∧
        Frames.Keeps (Makes fun s source => s.Ran source t ∨ s = t ∧ running = some source) id name
          (m₁.heap.frames.define id name .uninitialized) m.heap.frames) ∧
      ∀ x : Name, x.text = name →
        (∀ chain, m.heap.frames.holder? name chain = some id →
          m.heap.frames.get chain x = .error (.uninitialized x)) ∧
        ∀ chain ref, Frames.Refers chain id ref →
          let m := { m with chain := chain }
          Run.lookUp x ref m = .error (.error ⟨.uninitializedVariable name, name, x.line⟩) m ∧
            ∀ iterations depth, Run.evaluate iterations (depth + 1) (.var x ref) m =
              .error (.error ⟨.uninitializedVariable name, name, x.line⟩) m) ∧
    ∀ iterations depth chain x ref v m',
      Run.evaluate iterations depth (.var x ref) { m with chain := chain } = .ok v m' →
        ∃ id, m.heap.frames.find? id x.text = some (.value v) := by
  have own : ∀ (k : Keyword) chain distance, m.heap.frames.slotAt chain distance k.text ≠ .ok .uninitialized := by
    intro k chain distance found
    obtain ⟨id, _, unset⟩ := Frames.slotAt_eq_ok found
    exact reached.not_unset_keyword state id k unset
  refine ⟨fun chain distance => ⟨own .thisWord chain distance, own .superWord chain distance⟩, ?_, ?_⟩
  · intro id name unset
    obtain ⟨_, s, source, line, outer, m₁, _, past, comes, inside, keeps⟩ := reached.leftUnset_state state unset
    refine ⟨⟨s, source, line, outer, m₁, past, comes, inside, keeps⟩, ?_⟩
    rintro x rfl
    refine ⟨fun chain nearest => unset.get nearest, fun chain ref refers => ?_⟩
    have stops : Run.lookUp x ref { m with chain := chain } =
        .error (.error ⟨.uninitializedVariable x.text, x.text, x.line⟩) { m with chain := chain } := by
      rw [Run.lookUp_eq, unset.lookUp refers]
      rfl
    exact ⟨stops, fun iterations depth => stops⟩
  · intro iterations depth chain x ref v m' ends
    cases depth with
    | zero => cases ends
    | succ depth =>
        rw [Run.evaluate_var] at ends
        cases found : m.heap.frames.lookUp chain x ref with
        | error e =>
            rw [found, Run.access_error] at ends
            cases ends
        | ok u =>
            rw [found] at ends
            cases ends
            exact Frames.lookUp_eq_ok found

/-- The inner one of two variables of the same name holds no value. -/
def shadowing {ρ : Type} : List (Stmt ρ) :=
  [.var ⟨"a", 1⟩ (some (.literal .nil)), .block [.var ⟨"a", 1⟩ none]]

theorem accepted_shadowing : Accepted "var a=nil;\x7bvar a;\x7d" shadowing :=
  ⟨by cbv, by cbv, by cbv⟩

theorem frames_shadowing (clock : Nat → Float) :
    ((Session.start false .standard clock).run "var a=nil;\x7bvar a;\x7d").1.machine.heap.frames =
      #[.insert (.singleton "clock" (.value (.native .clock))) "a" (.value .nil), .singleton "a" .uninitialized] := by
  have resolved : (Stmt.resolveProgram shadowing).value = shadowing := by cbv
  rw [run_of_accepted rfl rfl accepted_shadowing, interpret_machine, resolved]
  rfl

theorem uninitialized_confined_shadowing :
    Accepted "var a=nil;\x7bvar a;\x7d" shadowing ∧ ∀ clock,
      let s := ((Session.start false .standard clock).run "var a=nil;\x7bvar a;\x7d").1
      let m := s.machine
      Reached [shadowing] s ∧ s.State none m ∧ m.heap.frames.Unset 1 "a" ∧
        m.heap.frames.find? Heap.globalFrame "a" = some (.value .nil) ∧
        Run.evaluate 0 1 (.var ⟨"a", 2⟩ (.scoped 0)) { m with chain := [1, 0] } =
          .error (.error ⟨.uninitializedVariable "a", "a", 2⟩) { m with chain := [1, 0] } := by
  refine ⟨accepted_shadowing, fun clock => ?_⟩
  have frames := frames_shadowing clock
  have reached := Reached.accepted (Reached.start false .standard clock) accepted_shadowing
  generalize ((Session.start false .standard clock).run "var a=nil;\x7bvar a;\x7d").1 = s at frames reached
  have unset : s.machine.heap.frames.Unset 1 "a" := by
    rw [frames]
    rfl
  obtain ⟨_, reads⟩ := (reached.uninitialized_confined .between).2.1 1 "a" unset
  refine ⟨reached, .between, unset, ?_, ((reads ⟨"a", 2⟩ rfl).2 [1, 0] (.scoped 0) rfl).2 0 0⟩
  rw [frames]
  rfl

/-! ## Assignments -/

/-- An assignment finds its variable bound, and binds no other name. -/
def Rebinds (m : Machine) (x : Name) (ref : Binding) (v : Value) : Prop :=
  ∃ id, m.heap.frames.target m.chain x ref = .ok id ∧ (m.heap.frames.find? id x.text).isSome = true ∧
    Run.store x ref v m = .ok () (Run.stored m id x.text (.value v)) ∧
    ∀ other key, ((Run.stored m id x.text (.value v)).heap.frames.find? other key).isSome =
      (m.heap.frames.find? other key).isSome

theorem Rebinds.of_target {x : Name} {ref : Binding} (target : m.heap.frames.target m.chain x ref = .ok id)
    (bound : (m.heap.frames.find? id x.text).isSome = true) (v : Value) : Rebinds m x ref v := by
  refine ⟨id, target, bound, Run.store_of_ok v target, fun other key => ?_⟩
  show ((m.heap.frames.define id x.text (.value v)).find? other key).isSome = _
  rw [Frames.find?_define]
  split
  · next here =>
      obtain ⟨rfl, rfl, _⟩ := here
      rw [bound]
      rfl
  · rfl

/-- When an assignment is about to store its value, the variable to which it is tied is bound, and no name is bound
that was not; or it is tied to a global variable that is not defined, and fails; or else it stands in the initializer
of the local variable that it is tied to. -/
theorem Reached.assign_binds (reached : Reached programs s) {program : List (Stmt Unit)}
    (accepted : Accepted source program) {x : Name} {ref : Binding} {value : Expr Binding}
    (comes : s.machine.ComesTo s.limits (Stmt.resolveProgram program).value (.expr (.assign x ref value)) m) :
    ∃ Γ, VisitedIn (program :: programs) Γ (.expr (.assign x ref value)) ∧ ∀ iterations depth v m',
      Run.evaluate iterations depth value m = .ok v m' →
        Rebinds m' x ref v ∨
        (ref = .global ∧ m'.heap.frames.find? Heap.globalFrame x.text = none ∧
          Run.store x ref v m' = .error (.error ⟨.undefinedVariable x.text, x.text, x.line⟩) m') ∨
        (ref = .scoped 0 ∧ ∃ scope outer, Γ.scopes = scope :: outer ∧ scope.find? x.text = some false) := by
  obtain ⟨Γ, stands, fits⟩ := reached.stands accepted comes
  refine ⟨Γ, stands.label, fun iterations depth v m' evaluates => ?_⟩
  -- The value is evaluated in the same environment, where nothing is unbound.
  have same := Run.restores_evaluate iterations depth value m
  have grown := Run.extends_evaluate iterations depth value m
  rw [Run.final_of_ok evaluates] at same grown
  have fits' : Fits m'.heap.frames Γ.scopes m'.chain := by
    rw [same]
    exact fits.mono grown
  obtain ⟨assignment, ready⟩ := stands
  have tied : ref = .ofScopes x.text Γ.scopes := by
    cases assignment with
    | assign _ _ tied _ => exact tied
  rcases ready.tied tied with rfl | ⟨d, scope, rfl, here, declared⟩ | initializer
  · have target : m'.heap.frames.target m'.chain x .global = _ := Frames.holder_globalChain m'.heap.frames x
    by_cases bound : (m'.heap.frames.find? Heap.globalFrame x.text).isSome = true
    · rw [if_pos bound] at target
      exact .inl (.of_target target bound v)
    · rw [if_neg bound] at target
      exact .inr (.inl ⟨rfl, Option.not_isSome_iff_eq_none.1 bound, Run.store_of_error v target⟩)
  · obtain ⟨id, inside, _, bound⟩ := fits'.get here
    have target : m'.heap.frames.target m'.chain x (.scoped d) = .ok id := by
      simp [Frames.target, Frames.ancestor, inside]
    exact .inl (.of_target target (bound x.text declared) v)
  · exact .inr (.inr initializer)

/-- The global variable `clock` is given another value. -/
theorem assign_binds_clock :
    Accepted "clock=nil;" [.expression (.assign ⟨"clock", 1⟩ () (.literal .nil))] ∧ ∀ clock,
      (Machine.start clock).ComesTo .standard [.expression (.assign ⟨"clock", 1⟩ .global (.literal .nil))]
        (.expr (.assign ⟨"clock", 1⟩ .global (.literal .nil))) (Machine.start clock) ∧
      Rebinds (Machine.start clock) ⟨"clock", 1⟩ .global .nil := by
  have accepted : Accepted "clock=nil;" [.expression (.assign ⟨"clock", 1⟩ () (.literal .nil))] :=
    ⟨by cbv, by cbv, by cbv⟩
  refine ⟨accepted, fun clock => ?_⟩
  have comes : (Machine.start clock).ComesTo .standard [.expression (.assign ⟨"clock", 1⟩ .global (.literal .nil))]
      (.expr (.assign ⟨"clock", 1⟩ .global (.literal .nil))) (Machine.start clock) := by
    refine fun stop _ => ⟨Machine.start clock, Run.bind_of_error _ ?_⟩
    refine (Run.executeTo_of_not_hit _ _ _ ?_).trans (Run.evaluateTo_of_hit stop _ _ ⟨rfl, rfl⟩)
    rintro ⟨same, _⟩
    cases same
  refine ⟨comes, ?_⟩
  obtain ⟨_, _, stores⟩ := (Reached.start false .standard clock).assign_binds accepted comes
  rcases stores 0 1 .nil (Machine.start clock) rfl with rebinds | ⟨_, unbound, _⟩ | ⟨tied, _⟩
  · exact rebinds
  · cases unbound
  · cases tied

/-- A local variable is given a value in its own initializer. -/
def selfAssigning {ρ : Type} (ref : ρ) : List (Stmt ρ) :=
  [.block [.var ⟨"a", 1⟩ (some (.grouping (.assign ⟨"a", 1⟩ ref (.literal (.bool true))))),
    .print (.var ⟨"a", 1⟩ ref)]]

/-- The machine when the assignment is about to run: the frame of the block is empty. -/
def beforeAssignment (clock : Nat → Float) : Machine :=
  { Machine.start clock with chain := [1, 0], heap := (Heap.start.addFrame .empty).2 }

theorem accepted_selfAssigning : Accepted "\x7b var a = (a = true); print a; \x7d" (selfAssigning ()) :=
  ⟨by cbv, by cbv, by cbv⟩

theorem comes_selfAssigning (clock : Nat → Float) :
    (Machine.start clock).ComesTo .standard (selfAssigning (.scoped 0))
      (.expr (.assign ⟨"a", 1⟩ (.scoped 0) (.literal (.bool true)))) (beforeAssignment clock) := by
  intro stop _
  have first : Run.executeTo (fun n m => n = .expr (.assign ⟨"a", 1⟩ (.scoped 0) (.literal (.bool true))) ∧
      m = beforeAssignment clock) stop Limits.standard.iterations 4999
      (.var ⟨"a", 1⟩ (some (.grouping (.assign ⟨"a", 1⟩ (.scoped 0) (.literal (.bool true))))))
      (beforeAssignment clock) = .error stop (beforeAssignment clock) := by
    refine (Run.executeTo_of_not_hit _ _ _ ?_).trans (Run.bind_of_error _ ?_)
    · rintro ⟨same, _⟩
      cases same
    · refine (Run.evaluateTo_of_not_hit _ _ _ ?_).trans (Run.evaluateTo_of_hit stop _ _ ⟨rfl, rfl⟩)
      rintro ⟨same, _⟩
      cases same
  refine ⟨_, Run.bind_of_error _ (Run.executeTo_block ?_ first)⟩
  rintro ⟨same, _⟩
  cases same

/-- The assignment in the initializer binds a name that was not bound, and the text runs to its end. -/
theorem assign_binds_anew :
    Accepted "\x7b var a = (a = true); print a; \x7d" (selfAssigning ()) ∧
    (Stmt.resolveProgram (selfAssigning ())).value = selfAssigning (.scoped 0) ∧ ∀ clock,
      (Machine.start clock).ComesTo .standard (selfAssigning (.scoped 0))
        (.expr (.assign ⟨"a", 1⟩ (.scoped 0) (.literal (.bool true)))) (beforeAssignment clock) ∧
      Run.evaluate 0 1 (.literal (.bool true)) (beforeAssignment clock) =
        .ok (.bool true) (beforeAssignment clock) ∧
      (beforeAssignment clock).heap.frames.find? 1 "a" = none ∧
      (∃ m, Run.store ⟨"a", 1⟩ (.scoped 0) (.bool true) (beforeAssignment clock) = .ok () m ∧
        m.heap.frames.find? 1 "a" = some (.value (.bool true))) ∧
      ¬ Rebinds (beforeAssignment clock) ⟨"a", 1⟩ (.scoped 0) (.bool true) ∧
      ((Machine.start clock).run .standard (selfAssigning (.scoped 0))).1 = .ok .nil ∧
      ((Machine.start clock).run .standard (selfAssigning (.scoped 0))).2.printed = #["true"] := by
  have resolved : (Stmt.resolveProgram (selfAssigning ())).value = selfAssigning (.scoped 0) := by cbv
  refine ⟨accepted_selfAssigning, resolved, fun clock => ⟨comes_selfAssigning clock, rfl, rfl, ⟨_, rfl, rfl⟩, ?_, rfl,
    rfl⟩⟩
  rintro ⟨id, target, bound, _⟩
  cases target
  cases bound

end Session

end LoxScript
