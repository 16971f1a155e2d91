import LoxScript.Proofs.Grammar.Complete
import LoxScript.Proofs.Grammar.Moved
import LoxScript.Proofs.Grammar.Sound
import LoxScript.Proofs.Run.Origin
import LoxScript.Proofs.Scope.Moved
import LoxScript.Proofs.Session.Phases
import LoxScript.Proofs.Token.Append

/-!
# Texts one after the other

Two texts may be run one after the other or as one text with a line break between them. The second text stands
further down then, which shows only in the lines of its errors and of the functions that it declares.
-/

namespace LoxScript

/-! ## From two texts to one program -/

theorem Stmt.forgetAll_resolveProgram_mapLines (program : List (Stmt Unit)) (f : Int → Int) :
    forgetAll ((resolveProgram program).value.map (mapLines f)) = program.map (mapLines f) := by
  rw [← mapLinesAll_eq_map, forgetAll_mapLinesAll, forgetAll_resolveProgram, mapLinesAll_eq_map]

namespace Accepted

variable {a b source : String} {first second program : List (Stmt Unit)}

theorem spelled (h : Accepted source program) : Stmts.Spelled (Scan.ofString source).list.tokens program := by
  have quiet : (Stmt.parse (Scan.ofString source).list).errors = [] := by rw [h.parses]
  have whole := Stmt.spelled_of_parse quiet
  rwa [h.parses] at whole

/-- The resolved program on other lines is well scoped. -/
theorem scoped_mapLines (h : Accepted source program) (f : Int → Int) :
    Stmts.Scoped Unlabelled .top ((Stmt.resolveProgram program).value.map (Stmt.mapLines f)) := by
  rw [← Stmt.mapLinesAll_eq_map]
  exact Stmts.Scoped.mapLines f _ h.unlabelled

/-- Two accepted texts are one accepted text, and resolution takes each of their programs for itself. -/
theorem line (ha : Accepted a first) (hb : Accepted b second) :
    Accepted (a ++ "\n" ++ b) (first ++ second.map (Stmt.mapLines (· + Scan.lineCount a))) ∧
      (Stmt.resolveProgram (first ++ second.map (Stmt.mapLines (· + Scan.lineCount a)))).value =
        (Stmt.resolveProgram first).value ++
          (Stmt.resolveProgram second).value.map (Stmt.mapLines (· + Scan.lineCount a)) := by
  obtain ⟨errors, tokens⟩ := Scan.ofString_line (a := a) (b := b) (by rw [ha.scans]; exact nofun)
  have scans : (Scan.ofString (a ++ "\n" ++ b)).errors = [] := by
    rw [errors, ha.scans, hb.scans]
    rfl
  have spelled := ha.spelled.append (hb.spelled.mapLines (· + Scan.lineCount a))
  rw [← tokens] at spelled
  have whole := ha.unlabelled.append (hb.scoped_mapLines (· + Scan.lineCount a))
  obtain ⟨value, resolves⟩ := Stmt.resolveProgram_forget whole
  rw [Stmt.forgetAll_eq_map, List.map_append, ← Stmt.forgetAll_eq_map, ← Stmt.forgetAll_eq_map,
    Stmt.forgetAll_resolveProgram, Stmt.forgetAll_resolveProgram_mapLines] at value resolves
  exact ⟨⟨scans, spelled.parse, resolves⟩, value⟩

end Accepted

/-- The line of an error that stands in the program is that of one of its tokens. -/
theorem Machine.FailsInside.exists_token {m : Machine} {limits : Limits} {source : String}
    {program : List (Stmt Unit)} {e : RuntimeError} (accepted : Accepted source program)
    (h : m.FailsInside limits (Stmt.resolveProgram program).value e) :
    ∃ t ∈ (Scan.ofString source).list.tokens, t.line = e.line := by
  by_contra none
  -- A move of this one line moves the error, but no token and so no statement.
  let f : Int → Int := fun n => if n = e.line then n + 1 else n
  have tokens : (Scan.ofString source).list.tokens.map (Token.mapLine f) = (Scan.ofString source).list.tokens := by
    refine (List.map_congr_left fun t ht => ?_).trans (List.map_id _)
    have other : t.line ≠ e.line := fun same => none ⟨t, ht, same⟩
    simp [Token.mapLine, f, other]
  have spelled := accepted.spelled.mapLines f
  rw [tokens] at spelled
  have unmoved : program.map (Stmt.mapLines f) = program := by
    have parses := accepted.parses
    rw [spelled.parse] at parses
    exact (Parsed.mk.inj parses).1
  have value := (Stmt.resolveProgram_forget (accepted.scoped_mapLines f)).1
  rw [Stmt.forgetAll_resolveProgram_mapLines, unmoved] at value
  have fails := h id f
  rw [← value, m.mapLines_id, h.fails] at fails
  have line := congrArg RuntimeError.line (Stop.error.inj (Except.error.inj fails))
  simp only [RuntimeError.mapLine, f, if_true] at line
  omega

/-- An error at a token of the text: it moves with the program and not with the functions kept from earlier. -/
structure Machine.ErrorInText (m : Machine) (limits : Limits) (source : String) (program : List (Stmt Unit))
    (e : RuntimeError) : Prop where
  inside : m.FailsInside limits (Stmt.resolveProgram program).value e
  notOutside : ¬ m.FailsOutside limits (Stmt.resolveProgram program).value e
  token : ∃ t ∈ (Scan.ofString source).list.tokens, t.line = e.line

/-- An error at a token of a function kept from earlier: it moves with the kept functions and not with the program, and
one of them changes when its line is moved. -/
structure Machine.ErrorInKept (m : Machine) (limits : Limits) (program : List (Stmt Unit)) (e : RuntimeError) :
    Prop where
  outside : m.FailsOutside limits (Stmt.resolveProgram program).value e
  notInside : ¬ m.FailsInside limits (Stmt.resolveProgram program).value e
  kept : ∀ f : Int → Int, f e.line ≠ e.line →
    (∃ c ∈ m.heap.closures, c.mapLines f ≠ c) ∨ ∃ k ∈ m.heap.classes, k.mapLines f ≠ k

/-- An error of an accepted text stands in the text or in a kept function, and not in both. -/
theorem Machine.errorInText_or_errorInKept {m : Machine} {limits : Limits} {source : String}
    {program : List (Stmt Unit)} {e : RuntimeError} (accepted : Accepted source program)
    (fails : (m.run limits (Stmt.resolveProgram program).value).1 = .error (.error e)) :
    m.ErrorInText limits source program e ∨ m.ErrorInKept limits program e := by
  cases failsInside_or_failsOutside fails with
  | inl inside => exact .inl ⟨inside, inside.not_failsOutside, inside.exists_token accepted⟩
  | inr outside => exact .inr ⟨outside, fun inside => inside.not_failsOutside outside, fun f => outside.exists_kept f⟩

/-! ## From two programs to one run -/

namespace Machine

variable {m m₁ : Machine} {limits : Limits} {first second : List (Stmt Binding)} {v : Value}

/-- What a program does after one that has run to its end. -/
theorem run_append (h : m.run limits first = (.ok v, m₁)) : m.run limits (first ++ second) =
    (if second = [] then .ok v else (m₁.run limits second).1, (m₁.run limits second).2) := by
  unfold run
  rw [Run.program_append, Run.bind_of_ok _ (run_eq_ok.1 h)]
  cases second with
  | nil => rfl
  | cons s second =>
      -- The value of the first program plays no part, because another statement follows.
      have same : Run.program limits v (s :: second) = Run.program limits .nil (s :: second) := rfl
      rw [same]
      cases Run.program limits .nil (s :: second) m₁ <;> simp

def shown (m : Machine) : Machine :=
  { m with printed := #[] }

theorem moved_shown (m : Machine) : m.shown.moved id m.printed = m := by
  have same := congrArg heap m.mapLines_id
  unfold moved shown
  rw [Array.append_empty]
  exact congrArg (fun h => { m with heap := h }) same

theorem shown_moved (m : Machine) (f : Int → Int) (p : Array String) : (m.moved f p).shown = m.shown.mapLines f := rfl

theorem shown_mapLines (m : Machine) (f : Int → Int) : (m.mapLines f).shown = m.shown.mapLines f := rfl

/-- The second program on other lines, behind the first one, reads the same marked run as by itself. -/
theorem run_append_mapLines (h : m.run limits first = (.ok v, m₁)) (k : Int → Int) :
    m.run limits (first ++ second.map (Stmt.mapLines k)) =
      (if second = [] then .ok v else (m₁.shown.run limits (second.map (Stmt.mapLines k))).1,
        (m₁.shown.runMarked limits second).2.moved (unmark id k) m₁.printed) := by
  have below := run_apart id k m₁.shown limits second m₁.printed
  have alone := m₁.shown.run_mapLines id k limits second
  rw [mapLines_id] at alone
  rw [moved_shown] at below
  rw [run_append h, below, alone]
  simp only [List.map_eq_nil_iff]

theorem run_append_eq_error_iff (h : m.run limits first = (.ok v, m₁)) (k : Int → Int) {stop : Stop} :
    (m.run limits (first ++ second.map (Stmt.mapLines k))).1 = .error stop ↔
      (m₁.shown.run limits (second.map (Stmt.mapLines k))).1 = .error stop := by
  rw [run_append_mapLines h]
  cases second with
  | nil => exact ⟨nofun, nofun⟩
  | cons s second => rfl

end Machine

namespace Entry

def written? : Entry → Option String
  | written text => some text
  | reported _ => none

end Entry

namespace Console

def written (c : Console) : List String :=
  c.entries.toList.filterMap Entry.written?

theorem written_prints (c : Console) (printed : Array String) :
    (printed.foldl print c).written = c.written ++ printed.toList.map (· ++ "\n") := by
  rw [prints_eq]
  simp [written, lines, Function.comp_def, Entry.written?]

theorem written_report (c : Console) (r : Report) : (c.report r).written = c.written := by
  simp [written, report, Entry.written?]

end Console

namespace Session

variable {s : Session} {a b source : String} {first second program : List (Stmt Unit)}

theorem staticReports_of_accepted (h : Accepted source program) : staticReports source = [] :=
  staticReports_eq_nil.2 (by rwa [h.parses])

theorem interpret_written (s : Session) (program : List (Stmt Binding)) :
    (s.interpret program).1.console.written =
      s.console.written ++ (s.machine.run s.limits program).2.printed.toList.map (· ++ "\n") := by
  unfold interpret
  cases s.machine.run s.limits program with
  | mk result m =>
      dsimp only
      split
      · exact Console.written_prints ..
      · exact (Console.written_report ..).trans (Console.written_prints ..)
      · exact Console.written_prints ..

def endingOf : Except Stop Value → Ending Value
  | .ok v => .done v
  | .error (.error _) => .done .nil
  | .error stop => .escaped stop.escape

theorem interpret_ending (s : Session) (program : List (Stmt Binding)) :
    (s.interpret program).2 = endingOf (s.machine.run s.limits program).1 := by
  unfold interpret
  cases s.machine.run s.limits program with
  | mk result m =>
      cases result with
      | ok v => rfl
      | error stop => cases stop <;> rfl

theorem failsWith_iff (quiet : s.console.hadError = false) (running : s.showTree = false)
    (accepted : Accepted source program) {e : RuntimeError} : s.FailsWith source e ↔
      (s.machine.run s.limits (Stmt.resolveProgram program).value).1 = .error (.error e) := by
  constructor
  · intro h
    obtain ⟨program', m, accepted', stops, _⟩ := h.ran
    obtain rfl := accepted.unique accepted'
    rw [Machine.run_eq_error_iff.2 stops]
  · intro h
    exact failsWith_of_run quiet running accepted (Prod.ext h rfl)

theorem FailsWith.unique {e e' : RuntimeError} (h : s.FailsWith source e) (h' : s.FailsWith source e') : e = e' := by
  obtain ⟨program, m, accepted, stops, _⟩ := h.ran
  obtain ⟨program', m', accepted', stops', _⟩ := h'.ran
  obtain rfl := accepted.unique accepted'
  have same := (Machine.run_eq_error_iff.2 stops).symm.trans (Machine.run_eq_error_iff.2 stops')
  exact Stop.error.inj (Except.error.inj (Prod.mk.inj same).1)

/-- Running two texts as one, with a line break between them, and running them one after the other differ in lines
only; `program` is that of the second text. -/
structure RunsAsOne (s : Session) (a b : String) (program : List (Stmt Unit)) : Prop where
  accepted : staticReports (a ++ "\n" ++ b) = []
  written : (s.run (a ++ "\n" ++ b)).1.console.written = ((s.run a).1.run b).1.console.written
  globals : (s.run (a ++ "\n" ++ b)).1.globals = ((s.run a).1.run b).1.globals
  machine : (s.run (a ++ "\n" ++ b)).1.machine.mapLines (fun _ => 0) =
    ((s.run a).1.run b).1.machine.mapLines (fun _ => 0)
  result : program ≠ [] → (s.run (a ++ "\n" ++ b)).2 = ((s.run a).1.run b).2
  /-- An error that stands in the second text stands further down. An error that stands in a function kept from the
  first text, or from earlier ones, stays where it is. -/
  fails : ∀ e, (s.run a).1.FailsWith b e →
    (s.run a).1.machine.ErrorInText s.limits b program e ∧
        s.FailsWith (a ++ "\n" ++ b) (e.mapLine (· + Scan.lineCount a)) ∨
      (s.run a).1.machine.ErrorInKept s.limits program e ∧ s.FailsWith (a ++ "\n" ++ b) e
  failsOnly : ∀ e, s.FailsWith (a ++ "\n" ++ b) e → ∃ e', (s.run a).1.FailsWith b e'

/-- The session after a run to the end has left the machine `m`. -/
def afterwards (s : Session) (m : Machine) : Session :=
  { s with console := m.printed.foldl Console.print s.console, machine := m.shown }

theorem Finishes.run_eq (h : s.Finishes a) (quiet : s.console.hadError = false) (running : s.showTree = false)
    (accepted : Accepted a first) :
    ∃ v m, s.machine.run s.limits (Stmt.resolveProgram first).value = (.ok v, m) ∧
      s.run a = (s.afterwards m, .done v) := by
  obtain ⟨program, v, m, accepted', ran, _⟩ := h.ran
  obtain rfl := accepted.unique accepted'
  refine ⟨v, m, ran, ?_⟩
  rw [run_of_accepted quiet running accepted, interpret, ran]
  rfl

/-! ## Two programs in one run or in two -/

section Interpret

variable {before after : List (Stmt Binding)} {v : Value} {m : Machine}
  (ran : s.machine.run s.limits before = (.ok v, m)) (k : Int → Int)

/-- The second program in a run of its own. -/
theorem run_afterwards (s : Session) (m : Machine) (after : List (Stmt Binding)) :
    (s.afterwards m).machine.run (s.afterwards m).limits after =
      ((m.shown.runMarked s.limits after).1.mapError (Stop.mapLine (unmark id id)),
        (m.shown.runMarked s.limits after).2.mapLines (unmark id id)) := by
  rw [← Machine.run_mapLines, ← Machine.run_eq_apart]
  rfl

include ran

theorem interpret_append_written : (s.interpret (before ++ after.map (Stmt.mapLines k))).1.console.written =
    ((s.afterwards m).interpret after).1.console.written := by
  rw [interpret_written, interpret_written, Machine.run_append_mapLines ran, run_afterwards]
  simp [afterwards, Console.written_prints, Machine.moved, Machine.mapLines]

theorem interpret_append_globals : (s.interpret (before ++ after.map (Stmt.mapLines k))).1.globals =
    ((s.afterwards m).interpret after).1.globals := by
  unfold globals
  rw [interpret_machine, interpret_machine, Machine.run_append_mapLines ran, run_afterwards]
  rfl

theorem interpret_append_machine :
    (s.interpret (before ++ after.map (Stmt.mapLines k))).1.machine.mapLines (fun _ => 0) =
      ((s.afterwards m).interpret after).1.machine.mapLines (fun _ => 0) := by
  rw [interpret_machine, interpret_machine, Machine.run_append_mapLines ran, run_afterwards]
  show Machine.mapLines _ (Machine.shown _) = Machine.mapLines _ (Machine.shown _)
  rw [Machine.shown_moved, Machine.shown_mapLines, Machine.mapLines_mapLines, Machine.mapLines_mapLines]
  rfl

theorem interpret_append_ending (following : after ≠ []) :
    (s.interpret (before ++ after.map (Stmt.mapLines k))).2 = ((s.afterwards m).interpret after).2 := by
  have alone := m.shown.run_mapLines id k s.limits after
  rw [Machine.mapLines_id] at alone
  rw [interpret_ending, interpret_ending, Machine.run_append_mapLines ran, run_afterwards, if_neg following, alone]
  dsimp only
  cases (m.shown.runMarked s.limits after).1 with
  | ok w => rfl
  | error stop => cases stop <;> rfl

end Interpret

/-- Running piecewise is running as one. -/
theorem Finishes.runsAsOne (finishes : s.Finishes a) (quiet : s.console.hadError = false)
    (running : s.showTree = false) (ha : Accepted a first) (hb : Accepted b second) :
    s.RunsAsOne a b second := by
  obtain ⟨v, m, ran, runA⟩ := finishes.run_eq quiet running ha
  obtain ⟨accepted, value⟩ := ha.line hb
  have next : (s.run a).1 = s.afterwards m := congrArg Prod.fst runA
  have quiet' : (s.afterwards m).console.hadError = false := next ▸ finishes.console.1.trans quiet
  have runB := run_of_accepted quiet' running hb
  have runAB := run_of_accepted quiet running accepted
  rw [value] at runAB
  have failsB {e} := failsWith_iff (e := e) quiet' running hb
  have failsAB {e} := failsWith_iff (e := e) quiet running accepted
  simp only [value, Machine.run_append_eq_error_iff ran] at failsAB
  have below {e : RuntimeError} (moved : ((m.shown.mapLines id).run s.limits ((Stmt.resolveProgram second).value.map
      (Stmt.mapLines (· + Scan.lineCount a)))).1 = .error (.error e)) : s.FailsWith (a ++ "\n" ++ b) e := by
    rw [Machine.mapLines_id] at moved
    exact failsAB.2 moved
  refine ⟨staticReports_of_accepted accepted, ?written, ?globals, ?machine, fun following => ?result,
    fun e failed => ?fails, fun e failed => ?failsOnly⟩
  case written =>
    rw [next, runAB, runB]
    exact interpret_append_written ran _
  case globals =>
    rw [next, runAB, runB]
    exact interpret_append_globals ran _
  case machine =>
    rw [next, runAB, runB]
    exact interpret_append_machine ran _
  case result =>
    rw [next, runAB, runB]
    refine interpret_append_ending ran _ fun none => following ?_
    rw [← Stmt.forgetAll_resolveProgram second, none]
    rfl
  case fails =>
    rw [next] at failed ⊢
    cases Machine.errorInText_or_errorInKept hb (failsB.1 failed) with
    | inl text => exact .inl ⟨text, below (text.inside id _)⟩
    | inr kept => exact .inr ⟨kept, below (kept.outside id _)⟩
  case failsOnly =>
    rw [next]
    have moved := failsAB.1 failed
    rw [← Machine.mapLines_id m.shown] at moved
    obtain ⟨e', failed'⟩ := (Machine.exists_error_mapLines id (· + Scan.lineCount a)).1 ⟨e, moved⟩
    exact ⟨e', failsB.2 failed'⟩

/-- A text that prints, and one that fails. -/
theorem runsAsOne_failure :
    (Accepted "print clock;" [.print (.var ⟨"clock", 1⟩ ())] ∧
      Accepted "-nil;" [.expression (.unary .negate 1 (.literal .nil))]) ∧
    ∀ clock, ((Session.start false .standard clock).Finishes "print clock;" ∧
        (Session.start false .standard clock).console.hadError = false ∧
        (Session.start false .standard clock).showTree = false) ∧
      (Session.start false .standard clock).RunsAsOne "print clock;" "-nil;"
        [.expression (.unary .negate 1 (.literal .nil))] ∧
      (Session.start false .standard clock).FailsWith "print clock;\n-nil;" ⟨.operandNotNumber, "-", 2⟩ := by
  have first : Accepted "print clock;" [.print (.var ⟨"clock", 1⟩ ())] := ⟨by cbv, by cbv, by cbv⟩
  have second : Accepted "-nil;" [.expression (.unary .negate 1 (.literal .nil))] := ⟨by cbv, by cbv, by cbv⟩
  refine ⟨⟨first, second⟩, fun clock => ?_⟩
  have ran : ((Machine.start clock).run .standard (Stmt.resolveProgram [.print (.var ⟨"clock", 1⟩ ())]).value).1 =
      .ok .nil := by cbv
  have finishes : (Session.start false .standard clock).Finishes "print clock;" :=
    finishes_of_run rfl rfl first (Prod.ext ran rfl)
  have asOne := finishes.runsAsOne rfl rfl first second
  have whole := staticReports_eq_nil.1 asOne.accepted
  refine ⟨⟨finishes, rfl, rfl⟩, asOne, (failsWith_iff rfl rfl whole).2 ?_⟩
  cbv

/-- An error in a function of the first text stays where it is when the second text stands further down. -/
theorem runsAsOne_kept_line :
    (Accepted "fun f() \x7b -nil; \x7d" [.function (.mk ⟨"f", 1⟩ [] [.expression (.unary .negate 1 (.literal .nil))])] ∧
      Accepted "f();" [.expression (.call (.var ⟨"f", 1⟩ ()) 1 [])]) ∧
    ∀ clock, ((Session.start false .standard clock).Finishes "fun f() \x7b -nil; \x7d" ∧
        (Session.start false .standard clock).console.hadError = false ∧
        (Session.start false .standard clock).showTree = false) ∧
      ((Session.start false .standard clock).run "fun f() \x7b -nil; \x7d").1.FailsWith "f();"
        ⟨.operandNotNumber, "-", 1⟩ ∧
      (Session.start false .standard clock).FailsWith "fun f() \x7b -nil; \x7d\nf();" ⟨.operandNotNumber, "-", 1⟩ ∧
      ¬ (Session.start false .standard clock).FailsWith "fun f() \x7b -nil; \x7d\nf();"
        ⟨.operandNotNumber, "-", 1 + Scan.lineCount "fun f() \x7b -nil; \x7d"⟩ := by
  have first : Accepted "fun f() \x7b -nil; \x7d"
      [.function (.mk ⟨"f", 1⟩ [] [.expression (.unary .negate 1 (.literal .nil))])] := ⟨by cbv, by cbv, by cbv⟩
  have second : Accepted "f();" [.expression (.call (.var ⟨"f", 1⟩ ()) 1 [])] := ⟨by cbv, by cbv, by cbv⟩
  refine ⟨⟨first, second⟩, fun clock => ?_⟩
  have ran : ((Machine.start clock).run .standard (Stmt.resolveProgram
      [.function (.mk ⟨"f", 1⟩ [] [.expression (.unary .negate 1 (.literal .nil))])]).value).1 = .ok .nil := by cbv
  have finishes : (Session.start false .standard clock).Finishes "fun f() \x7b -nil; \x7d" :=
    finishes_of_run rfl rfl first (Prod.ext ran rfl)
  have quiet : ((Session.start false .standard clock).run "fun f() \x7b -nil; \x7d").1.console.hadError = false :=
    finishes.console.1
  have running : ((Session.start false .standard clock).run "fun f() \x7b -nil; \x7d").1.showTree = false := by
    obtain ⟨v, m, _, runA⟩ := finishes.run_eq rfl rfl first
    rw [runA]
    rfl
  have alone : ((Session.start false .standard clock).run "fun f() \x7b -nil; \x7d").1.FailsWith "f();"
      ⟨.operandNotNumber, "-", 1⟩ := by
    rw [failsWith_iff quiet running second, run_of_accepted rfl rfl first, interpret_machine]
    cbv
  have behind : (Session.start false .standard clock).FailsWith "fun f() \x7b -nil; \x7d\nf();"
      ⟨.operandNotNumber, "-", 1⟩ := by
    refine (failsWith_iff rfl rfl (first.line second).1).2 ?_
    cbv
  refine ⟨⟨finishes, rfl, rfl⟩, alone, behind, fun moved => ?_⟩
  have lines := congrArg RuntimeError.line (behind.unique moved)
  have further : (1 : Int) = 1 + Scan.lineCount "fun f() \x7b -nil; \x7d" := lines
  unfold Scan.lineCount at further
  omega

end Session

end LoxScript
