import LoxScript.Proofs.Environment.Sound

/-!
# The moments of a run

A run comes to a moment when it is about to evaluate an expression or to execute a statement. It is made visible
by a breakpoint, at which the run stops.
-/

namespace LoxScript

/-- The pieces of program that are about to run, each with the machine that it finds. -/
abbrev Breakpoint := Node Binding → Machine → Prop

namespace Run

open Classical in
noncomputable def pausing (hit : Breakpoint) (stop : Stop) (n : Node Binding) (x : Run Value) : Run Value :=
  fun m => if hit n m then .error stop m else x m

theorem pausing_of_hit {hit : Breakpoint} (stop : Stop) {n : Node Binding} (x : Run Value) {m : Machine}
    (h : hit n m) : pausing hit stop n x m = .error stop m := by
  unfold pausing
  exact if_pos h

theorem pausing_of_not_hit {hit : Breakpoint} (stop : Stop) {n : Node Binding} (x : Run Value) {m : Machine}
    (h : ¬ hit n m) : pausing hit stop n x m = x m := by
  unfold pausing
  exact if_neg h

mutual

noncomputable def evaluateTo (hit : Breakpoint) (stop : Stop) (iterations : Nat) : Nat → Expr Binding → Run Value
  | 0, e => pausing hit stop (.expr e) (throw .overflow)
  | depth + 1, e => pausing hit stop (.expr e)
      (evaluateStep (evaluateTo hit stop iterations depth) (executeTo hit stop iterations depth) e)

noncomputable def executeTo (hit : Breakpoint) (stop : Stop) (iterations : Nat) : Nat → Stmt Binding → Run Value
  | 0, s => pausing hit stop (.stmt s) (throw .overflow)
  | depth + 1, s => pausing hit stop (.stmt s)
      (executeStep iterations (evaluateTo hit stop iterations depth) (executeTo hit stop iterations depth) s)

end

noncomputable def programTo (hit : Breakpoint) (stop : Stop) (limits : Limits) (program : List (Stmt Binding)) :
    Run Value :=
  programWith (executeTo hit stop limits.iterations limits.depth) .nil program

/-- Without breakpoints nothing is changed. -/
theorem evaluateTo_never (stop : Stop) (iterations depth : Nat) :
    evaluateTo (fun _ _ => False) stop iterations depth = evaluate iterations depth ∧
      executeTo (fun _ _ => False) stop iterations depth = execute iterations depth := by
  have goesOn : ∀ n x, pausing (fun _ _ => False) stop n x = x := by
    intro n x
    funext m
    exact pausing_of_not_hit stop x id
  induction depth with
  | zero =>
      refine ⟨funext fun e => ?_, funext fun s => ?_⟩
      · rw [evaluateTo, evaluate, goesOn]
      · rw [executeTo, execute, goesOn]
  | succ depth ih =>
      refine ⟨funext fun e => ?_, funext fun s => ?_⟩
      · rw [evaluateTo, evaluate, goesOn, ih.1, ih.2]
      · rw [executeTo, execute, goesOn, ih.1, ih.2]

theorem programTo_never (stop : Stop) (limits : Limits) (ss : List (Stmt Binding)) :
    programTo (fun _ _ => False) stop limits ss = program limits .nil ss := by
  unfold programTo
  rw [(evaluateTo_never stop _ _).2, program_eq]

theorem evaluateTo_of_hit {hit : Breakpoint} (stop : Stop) (iterations depth : Nat) {e : Expr Binding} {m : Machine}
    (h : hit (.expr e) m) : evaluateTo hit stop iterations depth e m = .error stop m := by
  cases depth with
  | zero => rw [evaluateTo, pausing_of_hit _ _ h]
  | succ depth => rw [evaluateTo, pausing_of_hit _ _ h]

theorem executeTo_of_hit {hit : Breakpoint} (stop : Stop) (iterations depth : Nat) {s : Stmt Binding} {m : Machine}
    (h : hit (.stmt s) m) : executeTo hit stop iterations depth s m = .error stop m := by
  cases depth with
  | zero => rw [executeTo, pausing_of_hit _ _ h]
  | succ depth => rw [executeTo, pausing_of_hit _ _ h]

theorem evaluateTo_of_not_hit {hit : Breakpoint} (stop : Stop) (iterations depth : Nat) {e : Expr Binding}
    {m : Machine} (h : ¬ hit (.expr e) m) : evaluateTo hit stop iterations (depth + 1) e m =
      evaluateStep (evaluateTo hit stop iterations depth) (executeTo hit stop iterations depth) e m := by
  rw [evaluateTo, pausing_of_not_hit _ _ h]

theorem executeTo_of_not_hit {hit : Breakpoint} (stop : Stop) (iterations depth : Nat) {s : Stmt Binding}
    {m : Machine} (h : ¬ hit (.stmt s) m) : executeTo hit stop iterations (depth + 1) s m =
      executeStep iterations (evaluateTo hit stop iterations depth) (executeTo hit stop iterations depth) s m := by
  rw [executeTo, pausing_of_not_hit _ _ h]

/-- A scope is left when its first statement stops. -/
theorem executeBlock_of_error {execute : Stmt Binding → Run Value} {chain : Chain} {frame : Frame} {stop : Stop}
    {s : Stmt Binding} {ss : List (Stmt Binding)} {m m' : Machine}
    (first : execute s { m with heap := (m.heap.addFrame frame).2, chain := m.heap.frames.size :: chain } =
      .error stop m') :
    executeBlock execute chain frame (s :: ss) m = .error stop { m' with chain := m.chain } := by
  have made : newFrame frame m = .ok m.heap.frames.size { m with heap := (m.heap.addFrame frame).2 } := rfl
  unfold executeBlock
  rw [bind_of_ok _ made]
  exact inChain_of_error (bind_of_error _ first)

/-- A block is left when its first statement comes to a breakpoint. -/
theorem executeTo_block {hit : Breakpoint} {stop : Stop} {iterations depth : Nat} {s : Stmt Binding}
    {ss : List (Stmt Binding)} {m m' : Machine} (h : ¬ hit (.stmt (.block (s :: ss))) m)
    (first : executeTo hit stop iterations depth s
      { m with heap := (m.heap.addFrame .empty).2, chain := m.heap.frames.size :: m.chain } = .error stop m') :
    executeTo hit stop iterations (depth + 1) (.block (s :: ss)) m = .error stop { m' with chain := m.chain } := by
  rw [executeTo_of_not_hit _ _ _ h]
  show (do
    executeBlock (executeTo hit stop iterations depth) m.chain .empty (s :: ss)
    return .nil : Run Value) m = _
  exact bind_of_error _ (executeBlock_of_error first)

/-- A call is left when the first statement of the function comes to a breakpoint. -/
theorem callClosure_of_error {execute : Stmt Binding → Run Value} {name : Name} {params : List Name} {chain : Chain}
    {isInitializer : Bool} {vs : List Value} {stop : Stop} {s : Stmt Binding} {ss : List (Stmt Binding)}
    {m m' : Machine} (other : ∀ v, stop ≠ .returning v)
    (first : execute s
      { m with
        heap := (m.heap.addFrame (.ofList ((params.map Name.text).zip (vs.map Slot.value)))).2
        chain := m.heap.frames.size :: chain } = .error stop m') :
    callClosure execute ⟨.mk name params (s :: ss), chain, isInitializer⟩ vs m =
      .error stop { m' with chain := m.chain } :=
  bind_of_error _ (catchReturn_of_error (executeBlock_of_error first) other)

end Run

/-- A run of the program from the machine `m₀` comes to the moment at which the piece `n` is about to run in the
machine `m`: with a breakpoint there, it stops whatever the breakpoint makes it stop with. -/
def Machine.ComesTo (m₀ : Machine) (limits : Limits) (program : List (Stmt Binding)) (n : Node Binding)
    (m : Machine) : Prop :=
  ∀ stop : Stop, (∀ v, stop ≠ .returning v) →
    ∃ m', Run.programTo (fun n' m' => n' = n ∧ m' = m) stop limits program m₀ = .error stop m'

/-- The declaration of a class runs without coming to any other piece. -/
theorem Machine.ComesTo.declared {m₀ m₁ m : Machine} {limits : Limits} {name : Name}
    {superclass : Option (Name × Binding)} {methods : List (FunctionDecl Binding)} {program : List (Stmt Binding)}
    {n : Node Binding} (h : m₁.ComesTo limits program n m)
    (declares : Run.declareClass name superclass methods m₀ = .ok () m₁) (deep : 0 < limits.depth)
    (ne : n ≠ .stmt (.classDecl name superclass methods)) :
    m₀.ComesTo limits (.classDecl name superclass methods :: program) n m := by
  intro stop other
  obtain ⟨m', ends⟩ := h stop other
  obtain ⟨depth, hdepth⟩ := Nat.exists_eq_add_of_lt deep
  rw [Nat.zero_add] at hdepth
  refine ⟨m', ?_⟩
  unfold Run.programTo at ends ⊢
  rw [hdepth] at ends ⊢
  have declared : Run.executeTo (fun n' m' => n' = n ∧ m' = m) stop limits.iterations (depth + 1)
      (.classDecl name superclass methods) m₀ = _ :=
    Run.executeTo_of_not_hit stop _ _ fun hit => ne hit.1.symm
  exact (Run.bind_of_ok _ (declared.trans (Run.bind_of_ok _ declares))).trans ends

/-! ## Breakpoints and lockstep -/

namespace Lockstep

variable {S : Lockstep} {hit : Breakpoint} {stop : Stop} {t : S.Stage} {A : S.Stage → Value → Value → Prop}
  {r : Prop} {x x' : Run Value} {n : Node Binding}

/-- A run may be interrupted at a breakpoint if its end there is excused. -/
theorem InStep.pausing {X : Stop → Prop} (h : S.InStep X t r A x x') (hstop : ∀ v, stop ≠ .returning v)
    (hX : ∀ m m', S.Store t m m' → hit n m' → X stop) : S.InStep X t r A x (Run.pausing hit stop n x') := by
  intro m m' hm
  by_cases hhit : hit n m'
  · rw [Run.pausing_of_hit stop x' hhit]
    exact .excused (hX m m' hm hhit) hstop
  · rw [Run.pausing_of_not_hit stop x' hhit]
    exact h m m' hm

/-- The pieces of the second of two corresponding programs that may run at a site. -/
def Allows (S : Lockstep) (Γ : S.Site) : Node Binding → Prop
  | .expr e => ∃ e', S.expr Γ e' e
  | .stmt s => ∃ s' Γ₁, S.stmt Γ s' s Γ₁

/-- Runs are in lockstep up to a breakpoint, if the second may end there. -/
theorem evaluateTo_executeTo (L : S.Lawful) {X : Stop → Prop} (hstop : ∀ v, stop ≠ .returning v)
    (hX : ∀ n Γ (t : S.Stage) (m m' : Machine), S.Allows Γ n → t.At Γ → S.Store t m m' → hit n m' → X stop)
    (iterations depth : Nat) :
    S.Evaluates X (Run.evaluate iterations depth) (Run.evaluateTo hit stop iterations depth) ∧
      S.Executes X (Run.execute iterations depth) (Run.executeTo hit stop iterations depth) := by
  have expr : ∀ {x x' : Expr Binding → Run Value}, S.Evaluates X x x' →
      S.Evaluates X x fun e => Run.pausing hit stop (.expr e) (x' e) := fun hx t Γ e e' hee ht =>
    (hx t Γ e e' hee ht).pausing hstop fun m m' hm => hX (.expr e') Γ t m m' ⟨e, hee⟩ ht hm
  have stmt : ∀ {x x' : Stmt Binding → Run Value}, S.Executes X x x' →
      S.Executes X x fun s => Run.pausing hit stop (.stmt s) (x' s) := fun hx t Γ s s' Γ₁ hss ht =>
    (hx t Γ s s' Γ₁ hss ht).pausing hstop fun m m' hm => hX (.stmt s') Γ t m m' ⟨s, Γ₁, hss⟩ ht hm
  induction depth with
  | zero =>
      exact ⟨expr fun _ _ _ _ _ _ => .halt L .overflow, stmt fun _ _ _ _ _ _ _ => .halt L .overflow⟩
  | succ depth ih =>
      exact ⟨expr (evaluateStep L ih.1 ih.2), stmt (executeStep L iterations ih.1 ih.2)⟩

/-- Whenever the second of two runs in lockstep comes to a piece, the piece may run where it stands, and the machine
that it finds corresponds to one that the first run has been through. The breakpoint stops the run with something that
the first run does not end with. -/
theorem comes (L : S.Lawful) {m₀ m₀' m : Machine} (hm : S.Store t m₀ m₀') {Γ : S.Site} (ht : t.At Γ)
    {program program' : List (Stmt Binding)} (hp : S.Stmts Γ program program')
    (fresh : ∀ s, ∃ stop, (∀ v, stop ≠ .returning v) ∧ ¬ S.Halts s stop) {limits : Limits}
    (comes : m₀'.ComesTo limits program' n m) :
    ∃ Γ, ∃ t : S.Stage, ∃ m₁, S.Allows Γ n ∧ t.At Γ ∧ S.Store t m₁ m := by
  have held : t.extent.Holds .nil := trivial
  obtain ⟨stop, other, unlike⟩ : ∃ stop : Stop, (∀ v, stop ≠ .returning v) ∧ ∀ s m₁,
      Run.programWith (Run.execute limits.iterations limits.depth) .nil program m₀ = .error s m₁ →
        ¬ S.Halts s stop := by
    cases Run.programWith (Run.execute limits.iterations limits.depth) .nil program m₀ with
    | ok v m₁ => exact ⟨.overflow, nofun, nofun⟩
    | error s m₁ =>
        obtain ⟨stop, other, unlike⟩ := fresh s
        refine ⟨stop, other, fun s' m' same => ?_⟩
        cases same
        exact unlike
  obtain ⟨m', ends⟩ := comes stop other
  have runs : S.Executes (fun _ => ∃ Γ, ∃ t : S.Stage, ∃ m₁, S.Allows Γ n ∧ t.At Γ ∧ S.Store t m₁ m)
      (Run.execute limits.iterations limits.depth)
      (Run.executeTo (fun n' m' => n' = n ∧ m' = m) stop limits.iterations limits.depth) := by
    refine (evaluateTo_executeTo L other (fun n' Γ t m₁ m' allowed ht hm same => ?_) _ _).2
    obtain ⟨rfl, rfl⟩ := same
    exact ⟨Γ, t, m₁, allowed, ht, hm⟩
  have ran := InStep.programWith L runs (r := True) hp (fun _ => trivial) ht held m₀ m₀' hm
  unfold Run.programTo at ends
  rw [ends] at ran
  generalize hx : Run.programWith (Run.execute limits.iterations limits.depth) Value.nil program m₀ = x at ran
  cases ran with
  | returned => exact absurd rfl (other _)
  | halted _ _ halts => exact absurd halts (unlike _ _ hx)
  | excused found _ => exact found

end Lockstep

/-! ## What is known at a moment -/

def Machine.Binds (m : Machine) (d : Nat) (name : String) : Prop :=
  ∃ id, m.chain[d]? = some id ∧ (m.heap.frames.find? id name).isSome

/-- The frames to which the references of a piece lead bind the names that are looked up there. -/
def Machine.Answers (m : Machine) : Node Binding → Prop
  | .expr (.var name ref) => ∀ d, ref = .scoped d → m.Binds d name.text
  | .expr (.this _ ref) => ∃ d, ref = .scoped d ∧ m.Binds d Keyword.thisWord.text
  | .expr (.super _ _ ref) =>
      ∃ d, ref = .scoped (d + 1) ∧ m.Binds (d + 1) Keyword.superWord.text ∧ m.Binds d Keyword.thisWord.text
  | .stmt (.classDecl _ (some (superclass, ref)) _) => ∀ d, ref = .scoped d → m.Binds d superclass.text
  | _ => True

def Node.Stands (P : Context → Node Binding → Prop) (Γ : Context) : Node Binding → Prop
  | .expr e => e.Scoped P Γ ∧ Γ.Ready
  | .stmt s => s.Scoped P Γ ∧ Γ.Settled

variable {P : Context → Node Binding → Prop} {Γ : Context}

theorem Expr.Scoped.label {e : Expr Binding} (h : e.Scoped P Γ) : P Γ (.expr e) := by
  cases h <;> assumption

theorem Stmt.Scoped.label {s : Stmt Binding} (h : s.Scoped P Γ) : P Γ (.stmt s) := by
  cases h <;> assumption

theorem Node.Stands.label {n : Node Binding} (h : n.Stands P Γ) : P Γ n := by
  cases n with
  | expr e => exact h.1.label
  | stmt s => exact h.1.label

namespace Machine

variable {m : Machine}

theorem binds_of_find? (hf : Fits m.heap.frames Γ.scopes m.chain) {d : Nat} {scope : Scope} {name : String}
    (hd : Γ.scopes[d]? = some scope) (hn : scope.find? name = some true) : m.Binds d name := by
  obtain ⟨id, hid, _, bound⟩ := hf.get hd
  exact ⟨id, hid, bound name hn⟩

theorem binds_of_finds (hf : Fits m.heap.frames Γ.scopes m.chain) {name : String} {d : Nat}
    (h : Γ.Finds name (.scoped d)) : m.Binds d name := by
  rcases h with h | ⟨d', scope, h, hd, hn⟩
  · cases h
  · cases h
    exact binds_of_find? hf hd hn

/-- Where the environment fits the scopes, every reference that is recorded with a distance is bound there. -/
theorem answers_of_stands {n : Node Binding} (h : n.Stands P Γ) (hf : Fits m.heap.frames Γ.scopes m.chain) :
    m.Answers n := by
  cases n with
  | expr e =>
      obtain ⟨hs, ready⟩ := h
      cases hs with
      | var _ _ reads =>
          rintro d rfl
          exact binds_of_finds hf (reads.finds ready.passed)
      | this _ hc href =>
          obtain ⟨d, hd, hscope⟩ := ready.shaped.this hc
          exact ⟨d, href.trans hd, binds_of_find? hf hscope rfl⟩
      | super _ hc href =>
          obtain ⟨d, hd, hthis, hsuper⟩ := ready.shaped.super hc
          exact ⟨d, href.trans hd, binds_of_find? hf hsuper rfl, binds_of_find? hf hthis rfl⟩
      | literal | grouping | unary | binary | logical | assign | call | get | set => trivial
  | stmt s =>
      obtain ⟨hs, settled⟩ := h
      cases hs with
      | @classDecl _ name superclass _ _ hn hsuper _ =>
          cases superclass with
          | none => trivial
          | some p =>
              rintro d hd
              obtain ⟨hne, _, reads⟩ := hsuper p rfl
              have marked := settled.mark hn.identifier
              have found := agreement.finds_unmark hne (reads.finds marked.ready.passed)
              rw [hd] at found
              exact binds_of_finds hf found
      | expression | print | var | block | function | ite | ret | loop => trivial

end Machine

/-! ## Runs up to a breakpoint -/

/-- The environment of the second machine fits the scopes of the code that may run. -/
theorem agreement.fits {t : (agreement P).Stage} {m m' : Machine} (ht : t.At Γ) (hm : (agreement P).Store t m m') :
    Fits m'.heap.frames Γ.scopes m'.chain := by
  obtain ⟨same, hf⟩ := ht
  obtain ⟨_, same', _⟩ := hm.frames
  rw [same', hm.right, ← same]
  exact hf

/-- The pieces that the correspondence allows stand in their surroundings. -/
theorem agreement.stands {n : Node Binding} (h : (agreement P).Allows Γ n) : n.Stands P Γ := by
  cases n with
  | expr e =>
      obtain ⟨_, rfl, hs, ready⟩ := h
      exact ⟨hs, ready⟩
  | stmt s =>
      obtain ⟨_, _, rfl, hs, settled, _⟩ := h
      exact ⟨hs, settled⟩

/-- Whenever a run of a well-scoped program comes to a piece, the piece may run where it stands, in a machine that
only well-scoped programs have worked on. -/
theorem Machine.Sound.comes {m₀ m : Machine} (h : m₀.Sound P) {program : List (Stmt Binding)}
    (hp : Stmts.Scoped P .top program) {limits : Limits} {n : Node Binding}
    (comes : m₀.ComesTo limits program n m) :
    ∃ Γ, ∃ t : (agreement P).Stage, ∃ m₁, n.Stands P Γ ∧ t.At Γ ∧ (agreement P).Store t m₁ m := by
  obtain ⟨t, hleft, hright, hs⟩ := h
  have unlike : ∀ s, ¬ (agreement P).Halts s (.fault .danglingReference) := by
    rintro s ⟨⟩
    assumption
  obtain ⟨Γ, u, m₁, allowed, hu, hm⟩ := Lockstep.comes (agreement.lawful P) hs (atTop hleft hright)
    (agreement.stmts hp settled_top) (fun s => ⟨.fault .danglingReference, nofun, unlike s⟩) comes
  exact ⟨Γ, u, m₁, agreement.stands allowed, hu, hm⟩

/-- Whenever a run of a well-scoped program comes to a piece, the piece stands where the environment fits. -/
theorem Machine.Sound.stands {m₀ m : Machine} (h : m₀.Sound P) {program : List (Stmt Binding)}
    (hp : Stmts.Scoped P .top program) {limits : Limits} {n : Node Binding}
    (comes : m₀.ComesTo limits program n m) :
    ∃ Γ, n.Stands P Γ ∧ Fits m.heap.frames Γ.scopes m.chain := by
  obtain ⟨Γ, t, m₁, stands, ht, hm⟩ := h.comes hp comes
  exact ⟨Γ, stands, agreement.fits ht hm⟩

end LoxScript
