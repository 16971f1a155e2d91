import LoxScript.Proofs.Environment.Sound
import LoxScript.Proofs.Scope.Sound
import LoxScript.Proofs.Tree.Parse
import LoxScript.Session.Basic

/-!
# Reached sessions

A session is reached by running texts one after another, whatever becomes of them. Its machine is sound at all
times, because only programs in which no error was found have run.
-/

namespace LoxScript

/-- A text in which no error is found before it runs, and the program that it is. -/
structure Accepted (source : String) (program : List (Stmt Unit)) : Prop where
  scans : (Scan.ofString source).errors = []
  parses : Stmt.parse (Scan.ofString source).list = ⟨program, []⟩
  resolves : (Stmt.resolveProgram program).errors = []

theorem Accepted.proper {source : String} {program : List (Stmt Unit)} (h : Accepted source program) :
    ∀ s ∈ program, s.Proper := by
  have proper := Stmt.parse_scan_proper source
  rw [h.parses] at proper
  exact proper

/-- The pieces of programs as they were visited when the programs were resolved. -/
def VisitedIn (programs : List (List (Stmt Unit))) (Γ : Context) (n : Node Binding) : Prop :=
  ∃ program ∈ programs, Resolver.VisitsNode program Γ n

theorem Accepted.wellScoped {source : String} {program : List (Stmt Unit)} (h : Accepted source program)
    {programs : List (List (Stmt Unit))} (hmem : program ∈ programs) :
    Stmts.Scoped (VisitedIn programs) .top (Stmt.resolveProgram program).value :=
  Stmt.resolveProgram_scoped (Resolver.labels_of_mem hmem) h.proper h.resolves

theorem Accepted.unlabelled {source : String} {program : List (Stmt Unit)} (h : Accepted source program) :
    Stmts.Scoped Unlabelled .top (Stmt.resolveProgram program).value :=
  Stmt.resolveProgram_scoped (Resolver.labels_unlabelled program) h.proper h.resolves

namespace Console

theorem hadError_reportAll (c : Console) (rs : List Report) :
    (c.reportAll rs).hadError = (c.hadError || rs.any Report.isStatic) := by
  unfold reportAll
  induction rs generalizing c with
  | nil => simp
  | cons r rs ih =>
      rw [List.foldl_cons, ih]
      simp [report, Bool.or_assoc]

theorem reports_print (c : Console) (line : String) : (c.print line).reports = c.reports := by
  simp [reports, print, write, Entry.report?]

theorem reports_prints (c : Console) (lines : Array String) : (lines.foldl print c).reports = c.reports := by
  rw [← Array.foldl_toList]
  induction lines.toList generalizing c with
  | nil => rfl
  | cons line lines ih =>
      rw [List.foldl_cons, ih, reports_print]

theorem reports_report (c : Console) (r : Report) : (c.report r).reports = c.reports ++ [r] := by
  simp [reports, report, Entry.report?]

end Console

namespace Session

/-- Errors found before running raise the flag. -/
theorem hadError_report {ε : Type} (s : Session) (message : ε → String) (es : List (Located ε)) :
    (s.report (es.map (Report.ofLocated message))).console.hadError = (s.console.hadError || !es.isEmpty) := by
  unfold report
  rw [Console.hadError_reportAll]
  cases es with
  | nil => rfl
  | cons e es => simp [Report.ofLocated, Report.isStatic]

theorem interpret_machine (s : Session) (program : List (Stmt Binding)) :
    (s.interpret program).1.machine = { (s.machine.run s.limits program).2 with printed := #[] } := by
  unfold interpret
  cases s.machine.run s.limits program with
  | mk result m =>
      dsimp only
      split <;> rfl

/-- Reporting changes nothing but the console. -/
theorem parse_cases {s s' : Session} {source : String} {o : Option (List (Stmt Unit))}
    (h : s.parse source = (s', o)) : s'.machine = s.machine ∧ s'.limits = s.limits ∧
      ∀ program ∈ o, (Scan.ofString source).errors = [] ∧
        Stmt.parse (Scan.ofString source).list = ⟨program, []⟩ := by
  obtain ⟨rfl, rfl⟩ := Prod.mk.inj h
  refine ⟨rfl, rfl, fun program hp => ?_⟩
  rw [hadError_report, hadError_report] at hp
  split at hp
  · cases hp
  · next quiet =>
      cases hp
      simp only [Bool.or_eq_true, Bool.not_eq_true', List.isEmpty_eq_false_iff, not_or, ne_eq,
        Decidable.not_not] at quiet
      refine ⟨quiet.1.2, ?_⟩
      rw [← quiet.2]

theorem resolve_cases {s s' : Session} {program : List (Stmt Unit)} {o : Option (List (Stmt Binding))}
    (h : s.resolve program = (s', o)) : s'.machine = s.machine ∧ s'.limits = s.limits ∧
      ∀ r ∈ o, r = (Stmt.resolveProgram program).value ∧ (Stmt.resolveProgram program).errors = [] := by
  obtain ⟨rfl, rfl⟩ := Prod.mk.inj h
  refine ⟨rfl, rfl, fun r hr => ?_⟩
  rw [hadError_report] at hr
  split at hr
  · cases hr
  · next quiet =>
      cases hr
      simp only [Bool.or_eq_true, Bool.not_eq_true', List.isEmpty_eq_false_iff, not_or, ne_eq,
        Decidable.not_not] at quiet
      exact ⟨rfl, quiet.2⟩

/-- A text runs only if it is accepted. -/
theorem run_machine (s : Session) (source : String) :
    (s.run source).1.machine = s.machine ∨ ∃ program, Accepted source program ∧
      (s.run source).1.machine =
        { (s.machine.run s.limits (Stmt.resolveProgram program).value).2 with printed := #[] } := by
  unfold run
  cases hp : s.parse source with
  | mk s₁ o =>
      obtain ⟨hm, hl, parsed⟩ := parse_cases hp
      cases o with
      | none => exact .inl hm
      | some program =>
          obtain ⟨scans, parses⟩ := parsed program rfl
          dsimp only
          split
          · exact .inl hm
          · cases hr : s₁.resolve program with
            | mk s₂ o =>
                obtain ⟨hm', hl', resolved⟩ := resolve_cases hr
                cases o with
                | none => exact .inl (hm'.trans hm)
                | some r =>
                    obtain ⟨rfl, resolves⟩ := resolved r rfl
                    refine .inr ⟨program, ⟨scans, parses, resolves⟩, ?_⟩
                    rw [interpret_machine, hm', hm, hl', hl]

/-- The sessions that running texts leads to, with the programs that were accepted on the way. The console may
change in between, as it does between the lines of an interactive session. -/
inductive Reached : List (List (Stmt Unit)) → Session → Prop where
  | start (showTree : Bool) (limits : Limits) (clock : Nat → Float) :
      Reached [] (Session.start showTree limits clock)
  | accepted {programs s source program} : Reached programs s → Accepted source program →
      Reached (program :: programs) (s.run source).1
  | rejected {programs s source} : Reached programs s → (∀ program, ¬ Accepted source program) →
      Reached programs (s.run source).1
  | console {programs s} (console : Console) : Reached programs s → Reached programs { s with console := console }

/-- In a reached session every function and every class comes from a program that was accepted. -/
theorem Reached.sound {programs : List (List (Stmt Unit))} {s : Session} (h : Reached programs s)
    {all : List (List (Stmt Unit))} (hall : ∀ p ∈ programs, p ∈ all) :
    s.machine.Sound (VisitedIn all) := by
  induction h with
  | start showTree limits clock => exact .start _ clock
  | @accepted programs s source program _ haccepted ih =>
      have before := ih fun p hp => hall p (List.mem_cons_of_mem _ hp)
      rcases s.run_machine source with same | ⟨other, hother, ran⟩
      · rw [same]
        exact before
      · have equal : other = program := by
          have parses := hother.parses
          rw [haccepted.parses] at parses
          exact (Parsed.mk.inj parses).1.symm
        subst equal
        rw [ran]
        exact (before.run (hother.wellScoped (hall other List.mem_cons_self)) s.limits).1.forgetPrinted
  | @rejected programs s source _ hrejected ih =>
      rcases s.run_machine source with same | ⟨program, haccepted, _⟩
      · rw [same]
        exact ih hall
      · exact absurd haccepted (hrejected program)
  | console console _ ih => exact ih hall

end Session

end LoxScript
