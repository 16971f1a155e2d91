import LoxScript.Proofs.Colour.Handler
import LoxScript.Proofs.Colour.Run
import LoxScript.Proofs.Session.Reached

/-!
# Sessions without escape characters

Whatever is done with clean texts in a session, there are no escape characters in its machine nor on its console. This
holds of one action, and by induction of any sequence of actions.
-/

namespace LoxScript

/-! ## The console -/

def Escape.Clean : Escape → Prop
  | .exit _ | .interrupt | .overflow | .rejected => True
  | .runtime error => LoxScript.Clean error.message
  | .general message _ => LoxScript.Clean message
  | .unforeseen name message => LoxScript.Clean name ∧ LoxScript.Clean message

theorem Stop.Clean.escape {stop : Stop} (h : stop.Clean) : stop.escape.Clean := by
  cases stop with
  | error e => exact h
  | overflow => trivial
  | exhausted | returning | fault => exact ⟨by decide, by decide⟩

namespace Report

theorem clean_runtime {error : RuntimeError} (h : LoxScript.Clean error.message) : (runtime error).Clean :=
  .append (.append (.append h (by decide)) (.int error.line)) (by decide)

theorem clean_general {message : String} (h : LoxScript.Clean message) (internal : Bool) :
    (general message internal).Clean := by
  refine .append (.append ?_ (by decide)) h
  cases internal <;> decide

end Report

namespace Console.Clean

variable {c : Console}

theorem push (hc : c.Clean) (entry : Entry) (h : entry.Clean) : ∀ e ∈ c.entries.push entry, e.Clean := by
  intro e mem
  rcases Array.mem_push.1 mem with old | rfl
  · exact hc e old
  · exact h

theorem print (hc : c.Clean) {line : String} (h : LoxScript.Clean line) : (c.print line).Clean :=
  hc.push (.written (line ++ "\n")) (Clean.append h (by decide))

theorem prints (hc : c.Clean) {lines : List String} (h : ∀ line ∈ lines, LoxScript.Clean line) :
    (lines.foldl Console.print c).Clean := by
  induction lines generalizing c with
  | nil => exact hc
  | cons line lines ih =>
      rw [List.forall_mem_cons] at h
      exact ih (hc.print h.1) h.2

theorem report (hc : c.Clean) {r : Report} (h : r.Clean) : (c.report r).Clean :=
  hc.push (.reported r) h

theorem reportAll (hc : c.Clean) {rs : List Report} (h : ∀ r ∈ rs, r.Clean) : (c.reportAll rs).Clean := by
  unfold Console.reportAll
  induction rs generalizing c with
  | nil => exact hc
  | cons r rs ih =>
      rw [List.forall_mem_cons] at h
      exact ih (hc.report h.1) h.2

theorem leave (hc : c.Clean) {o : Option Escape} (h : ∀ e ∈ o, e.Clean) : (c.leave o).1.Clean := by
  have general {message : String} (clean : LoxScript.Clean message) (internal : Bool) (otherwise : Aftermath) :
      (Console.leave.general c message internal otherwise).1.Clean :=
    hc.report (Report.clean_general clean internal)
  cases o with
  | none => exact hc
  | some e =>
      have clean := h e rfl
      cases e with
      | exit code => exact hc
      | runtime error => exact hc.report (Report.clean_runtime clean)
      | general message internal => exact general clean internal .suppressed
      | interrupt | overflow | rejected => exact general (by decide) false .suppressed
      | unforeseen name message =>
          have named : LoxScript.Clean ("unknown error: '" ++ name ++ ": ") :=
            .append (.append (by decide) clean.1) (by decide)
          exact general (.append (.append named clean.2) (by decide)) true .passedOn

end Console.Clean

/-! ## Actions -/

inductive Action where
  | run (source : String)
  | runLine (source : String)
  /-- Static errors are forgotten. -/
  | reset
  deriving DecidableEq, Repr

def Action.Clean : Action → Prop
  | .run source | .runLine source => LoxScript.Clean source
  | .reset => True

namespace Ending

variable {α : Type}

def value? : Ending α → Option α
  | done a => some a
  | escaped _ => none

def escape? : Ending α → Option Escape
  | done _ => none
  | escaped e => some e

def Clean : Ending Value → Prop
  | done v => v.Clean
  | escaped e => e.Clean

end Ending

namespace Session

def perform (s : Session) : Action → Session × Ending Value
  | .run source => s.run source
  | .runLine source => s.runLine source
  | .reset => ({ s with console := s.console.reset }, .done .nil)

/-- An action inside a guard: its value, if nothing escaped from it, and what became of what escaped. -/
def step (s : Session) (action : Action) : Session × Option Value × Aftermath :=
  let (s, ending) := s.perform action
  let (console, aftermath) := s.console.leave ending.escape?
  ({ s with console := console }, ending.value?, aftermath)

def trace (s : Session) : List Action → List (Session × Option Value × Aftermath)
  | [] => []
  | action :: actions => s.step action :: (s.step action).1.trace actions

theorem guarded_perform (s : Session) (action : Action) :
    guarded (s.perform action) = ((s.step action).1, (s.step action).2.1) := by
  unfold step
  cases s.perform action with
  | mk s ending => cases ending <;> rfl

structure Clean (s : Session) : Prop where
  machine : s.machine.Clean
  console : s.console.Clean

namespace Clean

variable {s : Session} {source : String}

theorem start (showTree : Bool) (limits : Limits) (clock : Nat → Float) :
    (Session.start showTree limits clock).Clean :=
  ⟨.start clock, nofun⟩

theorem withConsole (hs : s.Clean) {c : Console} (hc : c.Clean) : Session.Clean { s with console := c } :=
  ⟨hs.machine, hc⟩

theorem report (hs : s.Clean) {ε : Type} {message : ε → String} {es : List (Located ε)}
    (h : ∀ e ∈ es, (Report.ofLocated message e).Clean) : (s.report (es.map (Report.ofLocated message))).Clean :=
  hs.withConsole (hs.console.reportAll (List.forall_mem_map.2 h))

theorem parse (hs : s.Clean) (clean : LoxScript.Clean source) : (s.parse source).1.Clean :=
  (hs.report (Scan.clean_lexicalReports clean)).report (Scan.clean_syntaxReports clean)

theorem interpret (hs : s.Clean) {program : List (Stmt Binding)} (clean : ∀ s ∈ program, s.Clean) :
    (s.interpret program).1.Clean ∧ (s.interpret program).2.Clean := by
  obtain ⟨after, values, stops⟩ := hs.machine.run s.limits clean
  unfold Session.interpret
  generalize s.machine.run s.limits program = ran at after values stops
  obtain ⟨result, m⟩ := ran
  have printed : (m.printed.foldl Console.print s.console).Clean := by
    rw [← Array.foldl_toList]
    exact hs.console.prints fun line mem => after.printed line (Array.mem_toList_iff.1 mem)
  have told : Session.Clean { s with
      console := m.printed.foldl Console.print s.console
      machine := { m with printed := #[] } } := ⟨after.forgetPrinted, printed⟩
  cases result with
  | ok v => exact ⟨told, values v rfl⟩
  | error stop =>
      have escaped := stops stop rfl
      cases stop with
      | error e => exact ⟨told.withConsole (told.console.report (Report.clean_runtime escaped)), Value.clean_nil⟩
      | returning | overflow | exhausted | fault => exact ⟨told, escaped.escape⟩

theorem run (hs : s.Clean) (clean : LoxScript.Clean source) :
    (s.run source).1.Clean ∧ (s.run source).2.Clean := by
  have read := hs.parse clean
  unfold Session.run
  cases parsed : s.parse source with
  | mk s₁ o =>
      rw [parsed] at read
      cases o with
      | none => exact ⟨read, Value.clean_nil⟩
      | some program =>
          obtain ⟨_, parses⟩ := (parse_cases parsed).2.2 program rfl
          have statements := Scan.clean_program clean (congrArg Parsed.errors parses)
          have proper := Stmt.parse_scan_proper source
          rw [parses] at statements proper
          dsimp only
          split
          · have trees := List.forall_mem_map.2 fun s hs => Stmt.clean_toLisp s (statements s hs)
            exact ⟨read.withConsole (read.console.prints trees), Value.clean_nil⟩
          · have checked : (s₁.resolve program).1.Clean := read.report (Stmt.clean_scopeReports proper statements)
            cases resolved : s₁.resolve program with
            | mk s₂ o =>
                rw [resolved] at checked
                cases o with
                | none => exact ⟨checked, Value.clean_nil⟩
                | some r =>
                    obtain ⟨rfl, _⟩ := (resolve_cases resolved).2.2 r rfl
                    exact checked.interpret (Stmt.clean_resolveProgram statements)

theorem runLine (hs : s.Clean) (clean : LoxScript.Clean source) :
    (s.runLine source).1.Clean ∧ (s.runLine source).2.Clean := by
  have ran := hs.run clean
  unfold Session.runLine
  generalize s.run source = ended at ran
  obtain ⟨s₁, ending⟩ := ended
  cases ending with
  | escaped e => exact ran
  | done v =>
      refine ⟨ran.1.withConsole ?_, ran.2⟩
      -- Forgetting static errors leaves the entries alone.
      show Console.Clean (if v = .nil then s₁.console else s₁.console.print (s₁.machine.heap.display v))
      split
      · exact ran.1.console
      · exact ran.1.console.print (ran.1.machine.heap.display ran.2)

theorem perform (hs : s.Clean) {action : Action} (clean : action.Clean) :
    (s.perform action).1.Clean ∧ (s.perform action).2.Clean := by
  cases action with
  | run source => exact hs.run clean
  | runLine source => exact hs.runLine clean
  | reset => exact ⟨hs.withConsole hs.console, Value.clean_nil⟩

theorem step (hs : s.Clean) {action : Action} (clean : action.Clean) : (s.step action).1.Clean := by
  have performed := hs.perform clean
  unfold Session.step
  generalize s.perform action = ended at performed
  obtain ⟨s₁, ending⟩ := ended
  refine performed.1.withConsole (performed.1.console.leave ?_)
  cases ending with
  | done v => exact nofun
  | escaped e =>
      rintro e' ⟨⟩
      exact performed.2

/-- A session stays clean as long as it is given clean texts. -/
theorem trace (hs : s.Clean) {actions : List Action} (clean : ∀ a ∈ actions, a.Clean) :
    ∀ r ∈ s.trace actions, r.1.Clean := by
  induction actions generalizing s with
  | nil => exact nofun
  | cons action actions ih =>
      rw [List.forall_mem_cons] at clean
      exact List.forall_mem_cons.2 ⟨hs.step clean.1, ih (hs.step clean.1) clean.2⟩

end Clean

end Session

end LoxScript
