import LoxScript.Proofs.Session.Phases

/-!
# Lines of interactive input

One session takes in line after line. A line in which errors are found before it runs leaves nothing behind but
its reports: every other line does what it would have done without that line.
-/

namespace LoxScript

/-! ## What is on the console does not matter -/

namespace Console

def behind (earlier : Array Entry) (c : Console) : Console :=
  { c with entries := earlier ++ c.entries }

variable (earlier : Array Entry) (c : Console)

@[simp] theorem behind_write (text : String) : (c.behind earlier).write text = (c.write text).behind earlier := by
  simp only [behind, write, Array.append_push]

@[simp] theorem behind_print (line : String) : (c.behind earlier).print line = (c.print line).behind earlier :=
  behind_write earlier c _

@[simp] theorem behind_report (r : Report) : (c.behind earlier).report r = (c.report r).behind earlier := by
  simp only [behind, report, Array.append_push]

@[simp] theorem behind_reset : (c.behind earlier).reset = c.reset.behind earlier := rfl

theorem behind_reportAll (rs : List Report) : (c.behind earlier).reportAll rs = (c.reportAll rs).behind earlier := by
  unfold reportAll
  induction rs generalizing c with
  | nil => rfl
  | cons r rs ih => rw [List.foldl_cons, behind_report, ih, List.foldl_cons]

theorem behind_prints (lines : List String) : lines.foldl print (c.behind earlier) =
    (lines.foldl print c).behind earlier := by
  induction lines generalizing c with
  | nil => rfl
  | cons line lines ih => rw [List.foldl_cons, behind_print, ih, List.foldl_cons]

theorem behind_leave (e : Option Escape) :
    (c.behind earlier).leave e = ((c.leave e).1.behind earlier, (c.leave e).2) := by
  rcases e with _ | (_ | _ | _ | _ | _ | _ | _) <;>
    simp [leave, leave.general, raise] <;> rfl

/-- Leaving a guarded action is no error of the kind that is found before running. -/
theorem hadError_leave (e : Option Escape) : (c.leave e).1.hadError = c.hadError := by
  rcases e with _ | (_ | _ | _ | _ | _ | _ | _) <;>
    simp [leave, leave.general, raise, report, Report.isStatic]

end Console

namespace Session

def behind (earlier : Array Entry) (s : Session) : Session :=
  { s with console := s.console.behind earlier }

section Behind

variable (earlier : Array Entry) (s : Session)

theorem behind_report (rs : List Report) : (s.behind earlier).report rs = (s.report rs).behind earlier := by
  simp only [report, behind, Console.behind_reportAll]

theorem behind_parse (source : String) :
    (s.behind earlier).parse source = ((s.parse source).1.behind earlier, (s.parse source).2) := by
  unfold parse
  simp only [behind_report]
  rfl

theorem behind_resolve (program : List (Stmt Unit)) :
    (s.behind earlier).resolve program = ((s.resolve program).1.behind earlier, (s.resolve program).2) := by
  unfold resolve
  simp only [behind_report]
  rfl

theorem behind_interpret (program : List (Stmt Binding)) :
    (s.behind earlier).interpret program = ((s.interpret program).1.behind earlier, (s.interpret program).2) := by
  have prints (lines : Array String) := Console.behind_prints earlier s.console lines.toList
  simp only [Array.foldl_toList] at prints
  have same : (s.behind earlier).machine.run (s.behind earlier).limits program = s.machine.run s.limits program := rfl
  unfold interpret
  rw [same]
  obtain ⟨(_ | e | _ | _ | _) | v, m⟩ := s.machine.run s.limits program <;>
    simp only [behind, prints, report, Console.behind_reportAll]

theorem behind_run (source : String) :
    (s.behind earlier).run source = ((s.run source).1.behind earlier, (s.run source).2) := by
  unfold run
  rw [behind_parse]
  obtain ⟨s₁, _ | program⟩ := s.parse source
  · rfl
  · dsimp only
    by_cases shown : s₁.showTree
    · have shown' : (s₁.behind earlier).showTree = true := shown
      rw [if_pos shown, if_pos shown']
      simp only [behind, Console.behind_prints]
    · have shown' : ¬ (s₁.behind earlier).showTree = true := shown
      rw [if_neg shown, if_neg shown', behind_resolve]
      obtain ⟨s₂, _ | resolved⟩ := s₁.resolve program
      · rfl
      · exact behind_interpret earlier s₂ resolved

theorem behind_runLine (source : String) :
    (s.behind earlier).runLine source = ((s.runLine source).1.behind earlier, (s.runLine source).2) := by
  unfold runLine
  rw [behind_run]
  obtain ⟨s₁, v | e⟩ := s.run source
  · dsimp only
    by_cases silent : v = .nil
    · rw [if_pos silent, if_pos silent]
      rfl
    · rw [if_neg silent, if_neg silent]
      simp only [behind, Console.behind_print, Console.behind_reset]
  · rfl

end Behind

/-! ## One line after another -/

def line (s : Session) (source : String) : Session × Option Value :=
  guarded (s.runLine source)

/-- What can be seen of a line: its value, if no exceptional event has left it, and what it has added to the
console, program output and reports in their order. -/
structure Outcome where
  result : Option Value
  entries : List Entry

def outcome (s : Session) (source : String) : Outcome :=
  ⟨(s.line source).2, (s.line source).1.console.entries.toList.drop s.console.entries.size⟩

def afterLines (s : Session) (sources : List String) : Session :=
  sources.foldl (fun s source => (s.line source).1) s

def outcomes (s : Session) : List String → List Outcome
  | [] => []
  | source :: sources => s.outcome source :: (s.line source).1.outcomes sources

theorem outcomes_append (s : Session) (before after : List String) :
    s.outcomes (before ++ after) = s.outcomes before ++ (s.afterLines before).outcomes after := by
  induction before generalizing s with
  | nil => rfl
  | cons source before ih => exact congrArg _ (ih _)

@[simp] theorem length_outcomes (s : Session) (sources : List String) :
    (s.outcomes sources).length = sources.length := by
  induction sources generalizing s with
  | nil => rfl
  | cons source sources ih => exact congrArg (· + 1) (ih _)

section Behind

variable (earlier : Array Entry) (s : Session)

theorem behind_line (source : String) :
    (s.behind earlier).line source = ((s.line source).1.behind earlier, (s.line source).2) := by
  unfold line
  rw [behind_runLine]
  obtain ⟨s₁, v | e⟩ := s.runLine source
  · rfl
  · simp only [guarded, behind, Console.behind_leave]

theorem behind_outcome (source : String) : (s.behind earlier).outcome source = s.outcome source := by
  unfold outcome
  rw [behind_line]
  simp [behind, Console.behind, List.drop_append]

theorem behind_afterLines (sources : List String) :
    (s.behind earlier).afterLines sources = (s.afterLines sources).behind earlier := by
  unfold afterLines
  induction sources generalizing s with
  | nil => rfl
  | cons source sources ih => rw [List.foldl_cons, behind_line, ih, List.foldl_cons]

theorem behind_outcomes (sources : List String) : (s.behind earlier).outcomes sources = s.outcomes sources := by
  induction sources generalizing s with
  | nil => rfl
  | cons source sources ih => rw [outcomes, outcomes, behind_outcome, behind_line, ih]

end Behind

/-! ## Lines in which errors are found -/

def readingReports (source : String) : List Report :=
  let scan := Scan.ofString source
  scan.errors.map (Report.ofLocated LexicalError.message) ++
    (Stmt.parse scan.list).errors.map (Report.ofLocated SyntaxError.message)

/-- The errors that are found in a line before it runs. A line that is shown as trees is not resolved. -/
def faults (showTree : Bool) (source : String) : List Report :=
  if showTree then readingReports source else staticReports source

variable {s : Session} {source : String}

theorem isStatic_of_mem_faults {showTree : Bool} {r : Report} (h : r ∈ faults showTree source) :
    r.isStatic = true := by
  unfold faults at h
  split at h
  · simp only [readingReports, List.mem_append, List.mem_map] at h
    obtain ⟨e, _, rfl⟩ | ⟨e, _, rfl⟩ := h <;> rfl
  · exact isStatic_of_mem h

/-- What such a line does to a session is to report them. -/
theorem run_of_faults (quiet : s.console.hadError = false) (h : faults s.showTree source ≠ []) :
    s.run source = (s.report (faults s.showTree source), .done .nil) := by
  cases shown : s.showTree with
  | false =>
      rw [shown] at h
      exact run_of_rejected quiet shown h
  | true =>
      rw [shown, faults, if_pos rfl, readingReports, ne_eq, List.append_eq_nil_iff, List.map_eq_nil_iff,
        List.map_eq_nil_iff] at h
      unfold run parse
      dsimp only
      rw [hadError_report, hadError_report, quiet, faults, if_pos rfl, readingReports, report_append]
      rw [if_pos]
      simpa [List.isEmpty_iff, imp_iff_not_or] using h

/-- What a text without errors does to a session that shows trees. -/
theorem run_of_shown (quiet : s.console.hadError = false) (shown : s.showTree = true)
    (h : readingReports source = []) :
    s.run source = ({ s with console :=
      ((Stmt.parse (Scan.ofString source).list).value.map Stmt.toLisp).foldl Console.print s.console },
      .done .nil) := by
  rw [readingReports, List.append_eq_nil_iff, List.map_eq_nil_iff, List.map_eq_nil_iff] at h
  unfold run parse
  dsimp only
  rw [hadError_report, hadError_report, quiet, h.1, h.2]
  simp [report_nil, shown]

/-- A text does nothing but write to the console, or it is accepted and runs. -/
theorem run_cases (s : Session) (source : String) :
    (∃ console, s.run source = ({ s with console := console }, .done .nil)) ∨
      ∃ program, s.console.hadError = false ∧ Accepted source program ∧
        s.run source = s.interpret (Stmt.resolveProgram program).value := by
  cases loud : s.console.hadError with
  | true =>
      refine .inl ⟨(s.parse source).1.console, ?_⟩
      unfold run parse
      dsimp only
      rw [hadError_report, hadError_report, loud]
      rfl
  | false =>
      by_cases faulty : faults s.showTree source = []
      · cases shown : s.showTree with
        | true =>
            rw [faults, shown, if_pos rfl] at faulty
            have ran := run_of_shown loud shown faulty
            rw [shown] at ran
            exact .inl ⟨_, ran⟩
        | false =>
            rw [faults, shown] at faulty
            have accepted := staticReports_eq_nil.1 faulty
            exact .inr ⟨_, rfl, accepted, run_of_accepted loud shown accepted⟩
      · exact .inl ⟨_, run_of_faults loud faulty⟩

/-! ## Between lines -/

theorem interpret_showTree (s : Session) (program : List (Stmt Binding)) :
    (s.interpret program).1.showTree = s.showTree := by
  unfold interpret
  obtain ⟨(_ | e | _ | _ | _) | v, m⟩ := s.machine.run s.limits program <;> rfl

theorem interpret_hadError (s : Session) (program : List (Stmt Binding)) :
    (s.interpret program).1.console.hadError = s.console.hadError := by
  unfold interpret
  obtain ⟨(_ | e | _ | _ | _) | v, m⟩ := s.machine.run s.limits program <;>
    simp [Console.prints_eq, report, Console.reportAll, Console.report, Report.isStatic]

theorem run_showTree (s : Session) (source : String) : (s.run source).1.showTree = s.showTree := by
  obtain ⟨console, ran⟩ | ⟨program, _, _, ran⟩ := s.run_cases source
  · rw [ran]
  · rw [ran, interpret_showTree]

/-- An exceptional event leaves a line only when no error has kept it from running. -/
theorem hadError_of_escaped {e : Escape} (h : (s.run source).2 = .escaped e) :
    (s.run source).1.console.hadError = false := by
  obtain ⟨console, ran⟩ | ⟨program, quiet, _, ran⟩ := s.run_cases source
  · rw [ran] at h
    cases h
  · rw [ran, interpret_hadError, quiet]

theorem line_showTree (s : Session) (source : String) : (s.line source).1.showTree = s.showTree := by
  rw [← s.run_showTree source]
  unfold line runLine
  obtain ⟨s', v | e⟩ := s.run source <;> rfl

/-- No error of one line is held against the next. -/
theorem line_hadError (s : Session) (source : String) : (s.line source).1.console.hadError = false := by
  have quiet := @hadError_of_escaped s source
  unfold line runLine
  revert quiet
  obtain ⟨s', v | e⟩ := s.run source
  · exact fun _ => rfl
  · exact fun quiet => (Console.hadError_leave _ _).trans (quiet rfl)

theorem afterLines_showTree (s : Session) (sources : List String) :
    (s.afterLines sources).showTree = s.showTree := by
  unfold afterLines
  induction sources generalizing s with
  | nil => rfl
  | cons source sources ih => exact (ih _).trans (s.line_showTree source)

theorem afterLines_hadError (quiet : s.console.hadError = false) (sources : List String) :
    (s.afterLines sources).console.hadError = false := by
  unfold afterLines
  induction sources generalizing s with
  | nil => exact quiet
  | cons source sources ih => exact ih (s.line_hadError source)

/-- All that a line in which errors are found does is to add its reports to the console. -/
theorem line_of_faults (quiet : s.console.hadError = false) (h : faults s.showTree source ≠ []) :
    s.line source = ({ s with console := { s.console with
      entries := s.console.entries ++ ((faults s.showTree source).map Entry.reported).toArray } }, some .nil) := by
  have static : ∀ r ∈ faults s.showTree source, r.isStatic = true := fun r hr => isStatic_of_mem_faults hr
  unfold line runLine
  rw [run_of_faults quiet h]
  simp [guarded, report, Console.reportAll_static _ static, Console.reset, quiet]

def cleared (s : Session) : Session :=
  { s with console := { s.console with entries := #[] } }

theorem behind_cleared (s : Session) : s.cleared.behind s.console.entries = s := by
  simp [behind, Console.behind, cleared]

theorem outcomes_cleared (s : Session) (sources : List String) : s.cleared.outcomes sources = s.outcomes sources := by
  conv_rhs => rw [← s.behind_cleared, behind_outcomes]

theorem afterLines_cleared (s : Session) (sources : List String) :
    (s.cleared.afterLines sources).cleared = (s.afterLines sources).cleared := by
  conv_rhs => rw [← s.behind_cleared, behind_afterLines]
  rfl

/-! ## Leaving a line out -/

/-- After a line in which errors are found the session differs in nothing but the entries on its console. -/
theorem line_cleared (quiet : s.console.hadError = false) (faulty : faults s.showTree source ≠ []) :
    (s.line source).1.cleared = s.cleared := by
  rw [line_of_faults quiet faulty]
  rfl

theorem eraseIdx_middle {α : Type} (before : List α) (a : α) (after : List α) :
    (before ++ a :: after).eraseIdx before.length = before ++ after := by
  rw [List.eraseIdx_append_of_length_le (Nat.le_refl _), Nat.sub_self, List.eraseIdx_cons_zero]

theorem afterLines_append (s : Session) (before after : List String) :
    s.afterLines (before ++ after) = (s.afterLines before).afterLines after :=
  List.foldl_append

section Skip

variable (quiet : s.console.hadError = false) {before : List String} {bad : String} (after : List String)
  (faulty : faults s.showTree bad ≠ [])

include quiet faulty

theorem outcomes_skip :
    s.outcomes (before ++ after) = (s.outcomes (before ++ bad :: after)).eraseIdx before.length := by
  have skipped := line_cleared (afterLines_hadError quiet before) (by rwa [afterLines_showTree])
  rw [outcomes_append, outcomes_append, outcomes, ← outcomes_cleared ((s.afterLines before).line bad).1, skipped,
    outcomes_cleared, ← s.length_outcomes before, eraseIdx_middle]

theorem afterLines_skip :
    (s.afterLines (before ++ after)).cleared = (s.afterLines (before ++ bad :: after)).cleared := by
  have skipped := line_cleared (afterLines_hadError quiet before) (by rwa [afterLines_showTree])
  rw [afterLines_append, afterLines_append, ← afterLines_cleared, ← skipped, afterLines_cleared]
  rfl

end Skip

/-- In an interactive session a line in which an error is found before it runs leaves no trace: without it, all
other lines have the same values and add the same to the console, and the session ends in the same state. -/
theorem outcomes_eraseIdx (showTree : Bool) (limits : Limits) (clock : Nat → Float) {lines : List String} {i : Nat}
    {bad : String} (here : lines[i]? = some bad) (faulty : faults showTree bad ≠ []) :
    (Session.start showTree limits clock).outcomes (lines.eraseIdx i) =
        ((Session.start showTree limits clock).outcomes lines).eraseIdx i ∧
      ((Session.start showTree limits clock).afterLines (lines.eraseIdx i)).globals =
        ((Session.start showTree limits clock).afterLines lines).globals ∧
      ((Session.start showTree limits clock).afterLines (lines.eraseIdx i)).cleared =
        ((Session.start showTree limits clock).afterLines lines).cleared := by
  obtain ⟨before, after, rfl, rfl⟩ : ∃ before after, lines = before ++ bad :: after ∧ before.length = i := by
    obtain ⟨short, rfl⟩ := List.getElem?_eq_some_iff.1 here
    exact ⟨lines.take i, lines.drop (i + 1), by simp, by simp [Nat.le_of_lt short]⟩
  rw [eraseIdx_middle]
  generalize hs : Session.start showTree limits clock = s
  have quiet : s.console.hadError = false := by rw [← hs]; rfl
  have shown : faults s.showTree bad ≠ [] := by rwa [← hs]
  have ends : (s.afterLines (before ++ after)).cleared = (s.afterLines (before ++ bad :: after)).cleared :=
    afterLines_skip quiet after shown
  have globals := congrArg globals ends
  exact ⟨outcomes_skip quiet after shown, globals, ends⟩

/-- Between two good lines, one that reads a local variable in its own initializer. -/
theorem outcomes_eraseIdx_own : faults false "{ var a = a; }" ≠ [] ∧
    (Session.start false .standard fun _ => 0).outcomes ["var a = 1;", "print a;"] =
      ((Session.start false .standard fun _ => 0).outcomes
        ["var a = 1;", "{ var a = a; }", "print a;"]).eraseIdx 1 := by
  have faulty : faults false "{ var a = a; }" ≠ [] := by
    have found : faults false "{ var a = a; }" =
        [.static 1 (.atLexeme "a") "Can't read local variable in its own initializer."] := by cbv
    rw [found]
    exact List.cons_ne_nil _ _
  exact ⟨faulty, (outcomes_eraseIdx false .standard (fun _ => 0)
    (show ["var a = 1;", "{ var a = a; }", "print a;"][1]? = _ from rfl) faulty).1⟩

end Session

end LoxScript
