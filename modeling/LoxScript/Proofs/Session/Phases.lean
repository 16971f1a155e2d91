import Mathlib
import LoxScript.CommandLine
import LoxScript.Proofs.Environment.Sound
import LoxScript.Proofs.Session.Reached

/-!
# Phases do not mix

A text is rejected before any of it runs, or it runs until one of its statements fails, or it runs to its end.
The console, the machine and the exit code of a script tell which.
-/

namespace LoxScript

namespace Console

def lines (printed : Array String) : Array Entry :=
  printed.map fun line => .written (line ++ "\n")

theorem prints_eq (c : Console) (printed : Array String) :
    printed.foldl print c = { c with entries := c.entries ++ lines printed } := by
  obtain ⟨printed⟩ := printed
  rw [List.foldl_toArray]
  induction printed generalizing c with
  | nil => simp [lines]
  | cons line printed ih =>
      rw [List.foldl_cons, ih]
      refine congrArg (fun entries => { c with entries := entries }) (Array.toList_inj.1 ?_)
      simp [lines, print, write]

/-- Errors found before running raise their flag and leave the other one alone. -/
theorem reportAll_static (c : Console) {rs : List Report} (h : ∀ r ∈ rs, r.isStatic = true) :
    c.reportAll rs = { c with
      entries := c.entries ++ (rs.map Entry.reported).toArray
      hadError := c.hadError || !rs.isEmpty } := by
  unfold reportAll
  induction rs generalizing c with
  | nil => simp
  | cons r rs ih =>
      rw [List.foldl_cons, ih _ fun r' hr => h r' (List.mem_cons_of_mem _ hr)]
      have entries : (c.entries.push (.reported r)) ++ (rs.map Entry.reported).toArray =
          c.entries ++ ((r :: rs).map Entry.reported).toArray := by
        apply Array.toList_inj.1
        simp
      simp [report, h r List.mem_cons_self, entries]

end Console

/-! ## The statements of a program run one after another -/

namespace Run

theorem program_append (limits : Limits) (last : Value) (before after : List (Stmt Binding)) :
    program limits last (before ++ after) = (do let v ← program limits last before; program limits v after) := by
  induction before generalizing last with
  | nil => rfl
  | cons s before ih =>
      show (do let v ← execute limits.iterations limits.depth s; program limits v (before ++ after)) = _
      rw [funext ih]
      exact (bind_assoc _ _ _).symm

/-- A program that stops does so in one of its statements. -/
theorem program_stops {limits : Limits} {last : Value} {ss : List (Stmt Binding)} {m m' : Machine} {stop : Stop}
    (h : program limits last ss m = .error stop m') : ∃ before s after v m₀, ss = before ++ s :: after ∧
      program limits last before m = .ok v m₀ ∧ execute limits.iterations limits.depth s m₀ = .error stop m' := by
  induction ss generalizing last m with
  | nil => cases h
  | cons s ss ih =>
      unfold program at h
      cases hx : execute limits.iterations limits.depth s m with
      | error stop' m₁ =>
          rw [bind_of_error _ hx] at h
          cases h
          exact ⟨[], s, ss, last, m, rfl, rfl, hx⟩
      | ok v m₁ =>
          rw [bind_of_ok _ hx] at h
          obtain ⟨before, s', after, v', m₀, rfl, ran, stops⟩ := ih h
          refine ⟨s :: before, s', after, v', m₀, rfl, ?_, stops⟩
          unfold program
          rw [bind_of_ok _ hx, ran]

end Run

namespace Machine

variable {m m' : Machine} {limits : Limits} {program : List (Stmt Binding)} {stop : Stop}

/-- The statements before a failing one run to their end, the failing one leaves the machine as it is in the end,
and those after it do nothing. -/
def StopsWithin (m : Machine) (limits : Limits) (program : List (Stmt Binding)) (stop : Stop) (m' : Machine) :
    Prop :=
  ∃ before failing after v m₀, program = before ++ failing :: after ∧
    m.run limits before = (.ok v, m₀) ∧ m₀.run limits [failing] = (.error stop, m')

theorem run_eq_ok {v : Value} : m.run limits program = (.ok v, m') ↔ Run.program limits .nil program m = .ok v m' := by
  unfold run
  cases Run.program limits .nil program m <;> simp

theorem run_eq_error :
    m.run limits program = (.error stop, m') ↔ Run.program limits .nil program m = .error stop m' := by
  unfold run
  cases Run.program limits .nil program m <;> simp

theorem run_eq_error_iff : m.run limits program = (.error stop, m') ↔ m.StopsWithin limits program stop m' := by
  constructor
  · intro h
    obtain ⟨before, failing, after, v, m₀, rfl, ran, stops⟩ := Run.program_stops (run_eq_error.1 h)
    exact ⟨before, failing, after, v, m₀, rfl, run_eq_ok.2 ran, run_eq_error.2 (Run.bind_of_error _ stops)⟩
  · rintro ⟨before, failing, after, v, m₀, rfl, ran, stops⟩
    rw [run_eq_error, Run.program_append, Run.bind_of_ok _ (run_eq_ok.1 ran)]
    rw [run_eq_error] at stops
    unfold Run.program at stops ⊢
    cases hx : Run.execute limits.iterations limits.depth failing m₀ with
    | ok w m₁ =>
        rw [Run.bind_of_ok _ hx] at stops
        cases stops
    | error stop' m₁ =>
        rw [Run.bind_of_error _ hx] at stops ⊢
        exact stops

end Machine

/-! ## From a text to its outcome -/

theorem Accepted.unique {source : String} {program program' : List (Stmt Unit)} (h : Accepted source program)
    (h' : Accepted source program') : program = program' := by
  have parses := h.parses
  rw [h'.parses] at parses
  exact (Parsed.mk.inj parses).1.symm

namespace Session

variable {s : Session} {source : String} {program : List (Stmt Unit)}

/-- The errors found in a text before it runs. Resolution starts only if there are none until then. -/
def staticReports (source : String) : List Report :=
  let scan := Scan.ofString source
  let parsed := Stmt.parse scan.list
  let reading := scan.errors.map (Report.ofLocated LexicalError.message) ++
    parsed.errors.map (Report.ofLocated SyntaxError.message)
  if reading.isEmpty then
    (Stmt.resolveProgram parsed.value).errors.map (Report.ofLocated ScopeError.message)
  else
    reading

theorem isStatic_of_mem {r : Report} (h : r ∈ staticReports source) : r.isStatic = true := by
  unfold staticReports at h
  dsimp only at h
  split at h <;> simp only [List.mem_append, List.mem_map] at h
  · obtain ⟨e, _, rfl⟩ := h
    rfl
  · obtain ⟨e, _, rfl⟩ | ⟨e, _, rfl⟩ := h <;> rfl

/-- The texts without such errors are the accepted ones. -/
theorem staticReports_eq_nil :
    staticReports source = [] ↔ Accepted source (Stmt.parse (Scan.ofString source).list).value := by
  constructor
  · intro h
    unfold staticReports at h
    dsimp only at h
    split at h
    · next quiet =>
        rw [List.isEmpty_iff, List.append_eq_nil_iff, List.map_eq_nil_iff, List.map_eq_nil_iff] at quiet
        exact ⟨quiet.1, by rw [← quiet.2], List.map_eq_nil_iff.1 h⟩
    · next loud => exact absurd (List.isEmpty_iff.2 h) loud
  · intro h
    have resolves := h.resolves
    unfold staticReports
    dsimp only
    rw [h.scans, h.parses] at *
    exact List.map_eq_nil_iff.2 resolves

theorem report_append (s : Session) (rs rs' : List Report) : s.report (rs ++ rs') = (s.report rs).report rs' := by
  simp [report, Console.reportAll]

theorem report_nil (s : Session) : s.report [] = s :=
  rfl

/-- What a text in which errors are found does to a session is to report them. -/
theorem run_of_rejected (quiet : s.console.hadError = false) (running : s.showTree = false)
    (h : staticReports source ≠ []) : s.run source = (s.report (staticReports source), .done .nil) := by
  unfold run parse resolve
  unfold staticReports at h ⊢
  dsimp only at h ⊢
  rw [hadError_report, hadError_report, quiet]
  generalize Scan.ofString source = scan at h ⊢
  generalize Stmt.parse scan.list = parsed at h ⊢
  rw [← report_append]
  cases hs : scan.errors with
  | cons e es => simp
  | nil =>
      cases hp : parsed.errors with
      | cons e es => simp
      | nil =>
          rw [hs, hp] at h
          simp only [List.map_nil, List.append_nil, List.isEmpty_nil, if_true] at h ⊢
          rw [ne_eq, List.map_eq_nil_iff, ← List.isEmpty_iff] at h
          simp [report_nil, running, hadError_report, quiet, h]

/-- What an accepted text does to a session is to run. -/
theorem run_of_accepted (quiet : s.console.hadError = false) (running : s.showTree = false)
    (h : Accepted source program) : s.run source = s.interpret (Stmt.resolveProgram program).value := by
  unfold run parse resolve
  dsimp only
  rw [hadError_report, hadError_report, h.scans, h.parses]
  simp [quiet, running, report_nil, h.resolves]

/-- Nothing of the text runs: errors in it are reported, and that is all. -/
structure Rejects (s : Session) (source : String) : Prop where
  reported : ∃ rs : List Report, rs ≠ [] ∧ (∀ r ∈ rs, r.isStatic = true) ∧
    (s.run source).1.console = { s.console with
      entries := s.console.entries ++ (rs.map Entry.reported).toArray
      hadError := true }
  machine : (s.run source).1.machine = s.machine
  result : (s.run source).2 = .done .nil

/-- One of the statements fails with a runtime error, which is reported after all that was printed. -/
structure FailsWith (s : Session) (source : String) (e : RuntimeError) : Prop where
  ran : ∃ program m, Accepted source program ∧
    s.machine.StopsWithin s.limits (Stmt.resolveProgram program).value (.error e) m ∧
    (s.run source).1.machine = { m with printed := #[] } ∧
    (s.run source).1.console = { s.console with
      entries := (s.console.entries ++ Console.lines m.printed).push (.reported (.runtime e))
      hadRuntimeError := true }
  result : (s.run source).2 = .done .nil

/-- One of the statements is nested or calls too deeply while it runs, and an exceptional event leaves the run. The
limit is on the depth of the run alone (`Limits.depth`): to scan, parse and resolve a text never overflows here. -/
structure Overflows (s : Session) (source : String) : Prop where
  ran : ∃ program m, Accepted source program ∧
    s.machine.StopsWithin s.limits (Stmt.resolveProgram program).value .overflow m ∧
    (s.run source).1.machine = { m with printed := #[] } ∧
    (s.run source).1.console = { s.console with entries := s.console.entries ++ Console.lines m.printed }
  result : (s.run source).2 = .escaped .overflow

/-- The text runs to its end and does nothing to the console but print. -/
structure Finishes (s : Session) (source : String) : Prop where
  ran : ∃ program v m, Accepted source program ∧
    s.machine.run s.limits (Stmt.resolveProgram program).value = (.ok v, m) ∧
    (s.run source).1.machine = { m with printed := #[] } ∧
    (s.run source).1.console = { s.console with entries := s.console.entries ++ Console.lines m.printed } ∧
    (s.run source).2 = .done v

def Endless (s : Session) (source : String) : Prop :=
  (s.run source).2 = .escaped Stop.exhausted.escape

theorem rejects_of_reports (quiet : s.console.hadError = false) (running : s.showTree = false)
    (h : staticReports source ≠ []) : s.Rejects source := by
  have ran := run_of_rejected quiet running h
  have static : ∀ r ∈ staticReports source, r.isStatic = true := fun r hr => isStatic_of_mem hr
  refine ⟨⟨staticReports source, h, static, ?_⟩, by rw [ran]; rfl, by rw [ran]⟩
  rw [ran]
  simp [report, Console.reportAll_static _ static, h]

section Accepted

variable {m : Machine} (quiet : s.console.hadError = false) (running : s.showTree = false)
  (accepted : Accepted source program)

include quiet running accepted

theorem failsWith_of_run {e : RuntimeError}
    (h : s.machine.run s.limits (Stmt.resolveProgram program).value = (.error (.error e), m)) :
    s.FailsWith source e := by
  have ran := run_of_accepted quiet running accepted
  unfold interpret at ran
  rw [h] at ran
  simp only [Console.prints_eq] at ran
  refine ⟨⟨program, m, accepted, Machine.run_eq_error_iff.1 h, by rw [ran]; rfl, ?_⟩, by rw [ran]⟩
  rw [ran]
  simp [report, Console.reportAll, Console.report, Report.isStatic]

theorem overflows_of_run
    (h : s.machine.run s.limits (Stmt.resolveProgram program).value = (.error .overflow, m)) :
    s.Overflows source := by
  have ran := run_of_accepted quiet running accepted
  unfold interpret at ran
  rw [h] at ran
  simp only [Console.prints_eq] at ran
  exact ⟨⟨program, m, accepted, Machine.run_eq_error_iff.1 h, by rw [ran], by rw [ran]⟩, by rw [ran]; rfl⟩

theorem finishes_of_run {v : Value}
    (h : s.machine.run s.limits (Stmt.resolveProgram program).value = (.ok v, m)) : s.Finishes source := by
  have ran := run_of_accepted quiet running accepted
  unfold interpret at ran
  rw [h] at ran
  simp only [Console.prints_eq] at ran
  exact ⟨program, v, m, accepted, h, by rw [ran], by rw [ran], by rw [ran]⟩

theorem endless_of_run
    (h : s.machine.run s.limits (Stmt.resolveProgram program).value = (.error .exhausted, m)) :
    s.Endless source := by
  unfold Endless
  rw [run_of_accepted quiet running accepted]
  unfold interpret
  rw [h]

end Accepted

/-- Each of the phases has an outcome of its own. -/
theorem Reached.outcome {programs : List (List (Stmt Unit))} (reached : Reached programs s)
    (quiet : s.console.hadError = false) (running : s.showTree = false) (terminates : ¬ s.Endless source) :
    s.Rejects source ∨ ((∃ e, s.FailsWith source e) ∨ s.Overflows source) ∨ s.Finishes source := by
  by_cases h : staticReports source = []
  · have accepted := staticReports_eq_nil.1 h
    generalize (Stmt.parse (Scan.ofString source).list).value = program at accepted
    have sound : s.machine.Sound (VisitedIn (program :: programs)) :=
      reached.sound fun p hp => List.mem_cons_of_mem _ hp
    have safe := (sound.run (accepted.wellScoped List.mem_cons_self) s.limits).2
    cases hr : s.machine.run s.limits (Stmt.resolveProgram program).value with
    | mk result m =>
        rw [hr] at safe
        cases safe with
        | value => exact .inr (.inr (finishes_of_run quiet running accepted hr))
        | error => exact .inr (.inl (.inl ⟨_, failsWith_of_run quiet running accepted hr⟩))
        | overflow => exact .inr (.inl (.inr (overflows_of_run quiet running accepted hr)))
        | exhausted => exact absurd (endless_of_run quiet running accepted hr) terminates
  · exact .inl (rejects_of_reports quiet running h)

theorem Rejects.hadError (h : s.Rejects source) : (s.run source).1.console.hadError = true := by
  obtain ⟨rs, _, _, console⟩ := h.reported
  rw [console]

theorem FailsWith.hadError {e : RuntimeError} (h : s.FailsWith source e) :
    (s.run source).1.console.hadError = s.console.hadError := by
  obtain ⟨_, m, _, _, _, console⟩ := h.ran
  rw [console]

theorem Overflows.hadError (h : s.Overflows source) : (s.run source).1.console.hadError = s.console.hadError := by
  obtain ⟨_, m, _, _, _, console⟩ := h.ran
  rw [console]

theorem Finishes.console (h : s.Finishes source) : (s.run source).1.console.hadError = s.console.hadError ∧
    (s.run source).1.console.hadRuntimeError = s.console.hadRuntimeError := by
  obtain ⟨_, v, m, _, _, _, console, _⟩ := h.ran
  rw [console]
  exact ⟨rfl, rfl⟩

section Rejects

variable (h : s.Rejects source) (quiet : s.console.hadError = false)

include h quiet

end Rejects

/-! ## Exit codes -/

variable {text : String} (path : String)

end Session

end LoxScript
