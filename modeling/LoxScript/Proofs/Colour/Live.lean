import LoxScript.Proofs.Colour.Session

/-!
# Sessions in colour and without

A live session writes to the stream of its handler as it goes. It shows an ordinary session, whose console is coloured
only when it is rendered: all that is done in the one is done in the other (`Session.trace_live`), and the stream is
the rendered console (`Console.stream_handler`). Two live sessions, one in colour and one plain, do the same things step
by step, and their streams differ in nothing but the marks of styles.
-/

namespace LoxScript

structure LiveSession where
  handler : Handler
  machine : Machine
  /-- Whether programs are shown as trees instead of being run. -/
  showTree : Bool
  limits : Limits

namespace LiveSession

def start (fatal color showTree : Bool) (limits : Limits) (clock : Nat → Float) : LiveSession :=
  { handler := .fresh fatal color, machine := .start clock, showTree := showTree, limits := limits }

section

variable (paint : Style → String → String)

def report (s : LiveSession) (rs : List Report) : LiveSession :=
  { s with handler := s.handler.reportAll paint rs }

def parse (s : LiveSession) (source : String) : LiveSession × Option (List (Stmt Unit)) :=
  let scan := Scan.ofString source
  let s := s.report paint (scan.errors.map (Report.ofLocated LexicalError.message))
  let parsed := Stmt.parse scan.list
  let s := s.report paint (parsed.errors.map (Report.ofLocated SyntaxError.message))
  (s, if s.handler.hadError then none else some parsed.value)

def resolve (s : LiveSession) (program : List (Stmt Unit)) : LiveSession × Option (List (Stmt Binding)) :=
  let resolved := Stmt.resolveProgram program
  let s := s.report paint (resolved.errors.map (Report.ofLocated ScopeError.message))
  (s, if s.handler.hadError then none else some resolved.value)

def interpret (s : LiveSession) (program : List (Stmt Binding)) : LiveSession × Ending Value :=
  let (result, m) := s.machine.run s.limits program
  let handler := m.printed.foldl Handler.print s.handler
  let s := { s with handler := handler, machine := { m with printed := #[] } }
  match result with
  | .ok v => (s, .done v)
  | .error (.error e) => (s.report paint [.runtime e], .done .nil)
  | .error stop => (s, .escaped stop.escape)

def run (s : LiveSession) (source : String) : LiveSession × Ending Value :=
  match s.parse paint source with
  | (s, none) => (s, .done .nil)
  | (s, some program) =>
      if s.showTree then
        ({ s with handler := (program.map Stmt.toLisp).foldl Handler.print s.handler }, .done .nil)
      else
        match s.resolve paint program with
        | (s, none) => (s, .done .nil)
        | (s, some program) => s.interpret paint program

def runLine (s : LiveSession) (source : String) : LiveSession × Ending Value :=
  match s.run paint source with
  | (s, .escaped e) => (s, .escaped e)
  | (s, .done v) =>
      let handler := if v = .nil then s.handler else s.handler.print (s.machine.heap.display v)
      ({ s with handler := handler.reset }, .done v)

def perform (s : LiveSession) : Action → LiveSession × Ending Value
  | .run source => s.run paint source
  | .runLine source => s.runLine paint source
  | .reset => ({ s with handler := s.handler.reset }, .done .nil)

/-- An action inside a guard: its value, if nothing escaped from it, and what became of what escaped. -/
def step (s : LiveSession) (action : Action) : LiveSession × Option Value × Aftermath :=
  let (s, ending) := s.perform paint action
  let (handler, aftermath) := s.handler.leave paint ending.escape?
  ({ s with handler := handler }, ending.value?, aftermath)

def trace (s : LiveSession) : List Action → List (LiveSession × Option Value × Aftermath)
  | [] => []
  | action :: actions => s.step paint action :: (s.step paint action).1.trace actions

end

end LiveSession

/-! ## The session that is shown -/

namespace Session

variable (paint : Style → String → String) (color : Bool) (s : Session)

def live : LiveSession where
  handler := s.console.handler paint color
  machine := s.machine
  showTree := s.showTree
  limits := s.limits

theorem report_live (rs : List Report) : (s.live paint color).report paint rs = (s.report rs).live paint color :=
  congrArg (fun handler => { s.live paint color with handler := handler })
    (Console.reportAll_handler paint color s.console rs)

theorem parse_live (source : String) :
    (s.live paint color).parse paint source = ((s.parse source).1.live paint color, (s.parse source).2) := by
  unfold LiveSession.parse
  simp only [report_live]
  rfl

theorem resolve_live (program : List (Stmt Unit)) :
    (s.live paint color).resolve paint program =
      ((s.resolve program).1.live paint color, (s.resolve program).2) := by
  unfold LiveSession.resolve
  simp only [report_live]
  rfl

theorem interpret_live (program : List (Stmt Binding)) :
    (s.live paint color).interpret paint program =
      ((s.interpret program).1.live paint color, (s.interpret program).2) := by
  unfold LiveSession.interpret Session.interpret
  have ran : (s.live paint color).machine.run (s.live paint color).limits program =
    s.machine.run s.limits program := rfl
  rw [ran]
  obtain ⟨result, m⟩ := s.machine.run s.limits program
  have printed : m.printed.foldl Handler.print (s.live paint color).handler =
      (m.printed.foldl Console.print s.console).handler paint color := by
    rw [← Array.foldl_toList, ← Array.foldl_toList]
    exact Console.prints_handler paint color s.console m.printed.toList
  dsimp only
  rw [printed]
  cases result with
  | ok v => rfl
  | error stop =>
      cases stop with
      | error e => exact congrArg (·, _) (report_live paint color { s with
          console := m.printed.foldl Console.print s.console
          machine := { m with printed := #[] } } [.runtime e])
      | returning | overflow | exhausted | fault => rfl

theorem run_live (source : String) :
    (s.live paint color).run paint source = ((s.run source).1.live paint color, (s.run source).2) := by
  unfold LiveSession.run Session.run
  rw [parse_live]
  obtain ⟨s₁, o⟩ := s.parse source
  cases o with
  | none => rfl
  | some program =>
      have shown : (s₁.live paint color).showTree = s₁.showTree := rfl
      dsimp only
      rw [shown]
      by_cases trees : s₁.showTree = true
      · rw [if_pos trees, if_pos trees]
        exact congrArg (fun handler => ({ s₁.live paint color with handler := handler }, Ending.done Value.nil))
          (Console.prints_handler paint color s₁.console (program.map Stmt.toLisp))
      · rw [if_neg trees, if_neg trees, resolve_live]
        obtain ⟨s₂, o⟩ := s₁.resolve program
        cases o with
        | none => rfl
        | some program => exact interpret_live paint color s₂ program

theorem runLine_live (source : String) :
    (s.live paint color).runLine paint source = ((s.runLine source).1.live paint color, (s.runLine source).2) := by
  unfold LiveSession.runLine Session.runLine
  rw [run_live]
  obtain ⟨s₁, ending⟩ := s.run source
  cases ending with
  | escaped e => rfl
  | done v =>
      dsimp only
      by_cases nothing : v = .nil
      · rw [if_pos nothing, if_pos nothing]
        rfl
      · rw [if_neg nothing, if_neg nothing]
        exact congrArg
          (fun handler : Handler => ({ s₁.live paint color with handler := handler.reset }, Ending.done v))
          (Console.print_handler paint color s₁.console (s₁.machine.heap.display v))

theorem perform_live (action : Action) :
    (s.live paint color).perform paint action = ((s.perform action).1.live paint color, (s.perform action).2) := by
  cases action with
  | run source => exact run_live paint color s source
  | runLine source => exact runLine_live paint color s source
  | reset => rfl

theorem step_live (action : Action) :
    (s.live paint color).step paint action = ((s.step action).1.live paint color, (s.step action).2) := by
  unfold LiveSession.step Session.step
  rw [perform_live]
  obtain ⟨s₁, ending⟩ := s.perform action
  exact congrArg (fun left : Handler × Aftermath =>
    ({ s₁.live paint color with handler := left.1 }, ending.value?, left.2))
    (Console.leave_handler paint color s₁.console ending.escape?)

theorem trace_live (actions : List Action) :
    (s.live paint color).trace paint actions = (s.trace actions).map fun r => (r.1.live paint color, r.2) := by
  induction actions generalizing s with
  | nil => rfl
  | cons action actions ih =>
      unfold LiveSession.trace trace
      rw [List.map_cons, step_live, ih]

end Session

/-! ## With and without colour -/

namespace LiveSession

/-- Two sessions, one in colour and one plain, that differ in nothing but the marks of styles in the stream. -/
structure Recoloured (c p : LiveSession) : Prop where
  /-- So all global variables hold the same. -/
  machine : c.machine = p.machine
  handler : c.handler.Recoloured p.handler

/-- If nothing but marks is put around the pieces of reports that stand out, then the same actions on texts without
escape characters have the same values in colour and without, and what escapes from them meets with the same. After each
step the two sessions differ in nothing but the marks in the stream. -/
theorem trace_recoloured {paint : Style → String → String} (h : Style.Surrounds paint) (fatal showTree : Bool)
    (limits : Limits) (clock : Nat → Float) {actions : List Action} (clean : ∀ a ∈ actions, a.Clean) :
    List.Forall₂ (fun c p => c.2 = p.2 ∧ c.1.Recoloured p.1)
      ((start fatal true showTree limits clock).trace paint actions)
      ((start fatal false showTree limits clock).trace paint actions) := by
  let s : Session := { Session.start showTree limits clock with console := { Console.fresh with fatal := fatal } }
  have colored : start fatal true showTree limits clock = s.live paint true := rfl
  have plain : start fatal false showTree limits clock = s.live paint false := rfl
  have begun : s.Clean := (Session.Clean.start showTree limits clock).withConsole nofun
  rw [colored, plain, Session.trace_live, Session.trace_live, List.forall₂_map_left_iff, List.forall₂_map_right_iff,
    List.forall₂_same]
  intro r mem
  exact ⟨rfl, rfl, ((begun.trace clean) r mem).console.recoloured h⟩

/-- A text that is rejected, one that fails while it runs, and one whose value is shown. -/
def mixedActions : List Action :=
  [.run "print ;", .reset, .runLine "print true; print missing;", .runLine "1 + 2;"]

theorem trace_recoloured_mixed : Style.Surrounds Style.decorate ∧ (∀ a ∈ mixedActions, a.Clean) ∧
    List.Forall₂ (fun c p => c.2 = p.2 ∧ c.1.Recoloured p.1)
      ((start false true false .standard fun _ => 0).trace Style.decorate mixedActions)
      ((start false false false .standard fun _ => 0).trace Style.decorate mixedActions) := by
  have clean : ∀ a ∈ mixedActions, a.Clean := by
    simp only [mixedActions, List.mem_cons, List.not_mem_nil, or_false, forall_eq_or_imp, forall_eq, Action.Clean]
    decide
  exact ⟨Style.surrounds_decorate, clean,
    trace_recoloured Style.surrounds_decorate false false .standard (fun _ => 0) clean⟩

/-- In colour, what the second text adds to the stream. -/
example : ((start false true false .standard fun _ => 0).step Style.decorate
    (.runLine "print true; print missing;")).1.handler.output =
      [⟨.program, "true\n"⟩,
        ⟨.handler, "\x1b[1m\x1b[31mUndefined variable 'missing'.\x1b[0m\n[line 1]\n"⟩] := by
  decide +kernel

end LiveSession

end LoxScript
