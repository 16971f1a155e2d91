import Mathlib
import LoxScript.Proofs.Session.Reached

/-!
# Accepted programs are safe

Interpreting an accepted program gives a value, reports one runtime error, or does not come to an end. No
reference is broken on the way, and return statements end nothing but calls.
-/

namespace LoxScript

/-- How a program may end that is interpreted in the session `s`. Running out of iterations stands for a loop
that does not end. -/
inductive Session.EndsSafely (s : Session) : Session × Ending Value → Prop where
  | value {s' v} : s'.console.reports = s.console.reports → EndsSafely s (s', .done v)
  | error {s' e} : s'.console.reports = s.console.reports ++ [.runtime e] → EndsSafely s (s', .done .nil)
  | overflow {s'} : s'.console.reports = s.console.reports → EndsSafely s (s', .escaped .overflow)
  | endless {s'} : s'.console.reports = s.console.reports → EndsSafely s (s', .escaped Stop.exhausted.escape)

/-! ## Return statements -/

namespace Run

theorem catchReturn_catches (body : Run Unit) (m : Machine) (v : Value) (m' : Machine) :
    catchReturn body m ≠ .error (.returning v) m' := by
  unfold catchReturn
  cases body m with
  | ok u m₁ => simp
  | error stop m₁ => cases stop <;> simp

theorem lookUpOwn_returns (chain : Chain) (distance : Int) (name : String) (m : Machine) (v : Value)
    (m' : Machine) : lookUpOwn chain distance name m ≠ .error (.returning v) m' := by
  cases h : m.heap.frames.own? chain distance name with
  | some u =>
      rw [lookUpOwn_of_some h]
      simp
  | none =>
      obtain ⟨f, hf⟩ := lookUpOwn_of_none h
      rw [hf]
      simp

/-- No return statement reaches beyond the call of the function that it stands in, however the body is
executed. -/
theorem callClosure_catches (execute : Stmt Binding → Run Value) (c : Closure) (arguments : List Value)
    (m : Machine) (v : Value) (m' : Machine) : callClosure execute c arguments m ≠ .error (.returning v) m' := by
  have body := catchReturn_catches
    (executeBlock execute c.chain (.ofList ((c.decl.params.map Name.text).zip (arguments.map Slot.value)))
      c.decl.body) m
  unfold callClosure
  cases hx : catchReturn (executeBlock execute c.chain
      (.ofList ((c.decl.params.map Name.text).zip (arguments.map Slot.value))) c.decl.body) m with
  | ok result m₁ =>
      rw [bind_of_ok _ hx]
      cases c.isInitializer with
      | true => exact lookUpOwn_returns c.chain 0 _ m₁ v m'
      | false => exact nofun
  | error stop m₁ =>
      rw [bind_of_error _ hx]
      intro same
      cases same
      exact body v _ hx

end Run

/-! ## Interpreting -/

namespace Session

theorem interpret_of_ok {s : Session} {program : List (Stmt Binding)} {v : Value} {m : Machine}
    (h : s.machine.run s.limits program = (.ok v, m)) :
    s.interpret program = ({ s with
      console := m.printed.foldl Console.print s.console, machine := { m with printed := #[] } }, .done v) := by
  unfold interpret
  rw [h]

theorem reports_interpret {s : Session} {program : List (Stmt Binding)} {stop : Stop} {m : Machine}
    (h : s.machine.run s.limits program = (.error stop, m)) (he : ∀ e, stop ≠ .error e) :
    (s.interpret program).2 = .escaped stop.escape ∧
      (s.interpret program).1.console.reports = s.console.reports := by
  unfold interpret
  rw [h]
  cases stop with
  | error e => exact absurd rfl (he e)
  | returning _ | overflow | exhausted | fault _ => exact ⟨rfl, Console.reports_prints _ _⟩

theorem interpret_of_error {s : Session} {program : List (Stmt Binding)} {e : RuntimeError} {m : Machine}
    (h : s.machine.run s.limits program = (.error (.error e), m)) :
    (s.interpret program).2 = .done .nil ∧
      (s.interpret program).1.console.reports = s.console.reports ++ [.runtime e] := by
  unfold interpret
  rw [h]
  refine ⟨rfl, ?_⟩
  show ((m.printed.foldl Console.print s.console).report (.runtime e)).reports = _
  rw [Console.reports_report, Console.reports_prints]

/-- A session in which every function and every class is sound interprets well-scoped programs safely. -/
theorem endsSafely_of_sound {P : Context → Node Binding → Prop} {s : Session} (sound : s.machine.Sound P)
    {program : List (Stmt Binding)} (hp : Stmts.Scoped P .top program) : s.EndsSafely (s.interpret program) := by
  have safe := (sound.run hp s.limits).2
  generalize hr : s.machine.run s.limits program = r at safe
  obtain ⟨result, m⟩ := r
  generalize hi : s.interpret program = i
  obtain ⟨s', ending⟩ := i
  cases safe with
  | value =>
      rw [interpret_of_ok hr] at hi
      cases hi
      exact .value (Console.reports_prints _ _)
  | error =>
      have ends := interpret_of_error hr
      rw [hi] at ends
      obtain ⟨rfl, reports⟩ := ends
      exact .error reports
  | overflow =>
      have ends := reports_interpret hr nofun
      rw [hi] at ends
      obtain ⟨rfl, reports⟩ := ends
      exact .overflow reports
  | exhausted =>
      have ends := reports_interpret hr nofun
      rw [hi] at ends
      obtain ⟨rfl, reports⟩ := ends
      exact .endless reports

/-- Interpreting an accepted program in any session that earlier texts have led to ends safely. -/
theorem Reached.interpret_safe {programs : List (List (Stmt Unit))} {s : Session} (reached : Reached programs s)
    {source : String} {program : List (Stmt Unit)} (accepted : Accepted source program) :
    s.EndsSafely (s.interpret (Stmt.resolveProgram program).value) ∧
      ∀ execute c arguments m v m', Run.callClosure execute c arguments m ≠ .error (.returning v) m' := by
  refine ⟨?_, Run.callClosure_catches⟩
  have sound : s.machine.Sound (VisitedIn (program :: programs)) :=
    reached.sound fun p hp => List.mem_cons_of_mem _ hp
  exact endsSafely_of_sound sound (accepted.wellScoped List.mem_cons_self)

/-- A method that was made by an earlier text is called. -/
theorem interpret_safe_method :
    Accepted "class A\x7bm()\x7breturn this;\x7d\x7d"
        [.classDecl ⟨"A", 1⟩ none [.mk ⟨"m", 1⟩ [] [.ret 1 (some (.this 1 ()))]]] ∧
      Accepted "print A().m();"
        [.print (.call (.get (.call (.var ⟨"A", 1⟩ ()) 1 []) ⟨"m", 1⟩) 1 [])] ∧
      ∀ clock, EndsSafely ((Session.start false .standard clock).run "class A\x7bm()\x7breturn this;\x7d\x7d").1
        (((Session.start false .standard clock).run "class A\x7bm()\x7breturn this;\x7d\x7d").1.interpret
          [.print (.call (.get (.call (.var ⟨"A", 1⟩ .global) 1 []) ⟨"m", 1⟩) 1 [])]) := by
  have first : Accepted "class A\x7bm()\x7breturn this;\x7d\x7d"
      [.classDecl ⟨"A", 1⟩ none [.mk ⟨"m", 1⟩ [] [.ret 1 (some (.this 1 ()))]]] :=
    ⟨by cbv, by cbv, by cbv⟩
  have second : Accepted "print A().m();"
      [.print (.call (.get (.call (.var ⟨"A", 1⟩ ()) 1 []) ⟨"m", 1⟩) 1 [])] :=
    ⟨by cbv, by cbv, by cbv⟩
  exact ⟨first, second, fun clock => ((Reached.start false .standard clock).accepted first).interpret_safe second |>.1⟩

end Session

end LoxScript
