import LoxScript.Proofs.Environment.Trace
import LoxScript.Proofs.Scope.Moved
import LoxScript.Proofs.Session.Phases
import LoxScript.Proofs.Session.Units

/-!
# The states of a session

A session is between two texts, or an accepted text is running and has come to one of the pieces of a program. The
environment is restored whenever a piece, a block or a call is left, so each text starts as top-level code.
-/

namespace LoxScript

/-- The statements of a program stand in the surroundings of the top level. -/
theorem Stmts.Scoped.of_mem {P : Context → Node Binding → Prop} {ss : List (Stmt Binding)}
    (h : Stmts.Scoped P .top ss) {s : Stmt Binding} (hs : s ∈ ss) : s.Scoped P .top := by
  induction ss with
  | nil => cases hs
  | cons t ss ih =>
      cases h with
      | cons ht hss =>
          rw [Context.after_top] at hss
          rcases List.mem_cons.1 hs with rfl | hs
          · exact ht
          · exact ih hss hs

namespace Session

def ComesTo (s : Session) (source : String) (n : Node Binding) (m : Machine) : Prop :=
  ∃ program, Accepted source program ∧ s.machine.ComesTo s.limits (Stmt.resolveProgram program).value n m

/-- The machines of a session, between two texts and while a text is running. -/
inductive State (s : Session) : Option String → Machine → Prop where
  | between : State s none s.machine
  | during {source n m} : s.ComesTo source n m → State s (some source) m

/-- The session ran a text, and other texts have been run since. -/
inductive Ran (s : Session) (source : String) : Session → Prop where
  | last : Ran s source (s.run source).1
  | before {t} (other : String) : Ran s source t → Ran s source (t.run other).1
  | console {t} (console : Console) : Ran s source t → Ran s source { t with console := console }

variable {programs : List (List (Stmt Unit))} {s : Session} {n : Node Binding} {m : Machine}

theorem Reached.chain (reached : Reached programs s) : s.machine.chain = Heap.globalChain :=
  eq_of_beq reached.atTopLevel

/-- The pieces that a session comes to stand where the environment fits. -/
theorem Reached.stands (reached : Reached programs s) {source : String} {program : List (Stmt Unit)}
    (accepted : Accepted source program)
    (comes : s.machine.ComesTo s.limits (Stmt.resolveProgram program).value n m) :
    ∃ Γ, n.Stands (VisitedIn (program :: programs)) Γ ∧ Fits m.heap.frames Γ.scopes m.chain := by
  have sound : s.machine.Sound (VisitedIn (program :: programs)) :=
    reached.sound fun p hp => List.mem_cons_of_mem _ hp
  exact sound.stands (accepted.wellScoped List.mem_cons_self) comes

/-- Whatever machine a piece, a block or a callable finds, and however it is left, by running to its end, by a return
statement, by a runtime error or by an overflow, the machine is back in the environment that it had. So a session that
has run any texts is back in the global environment, and the next text starts there: each statement of the top level
was resolved outside all scopes, and is executed in the global environment. -/
theorem Reached.environment_restored (reached : Reached programs s) :
    (∀ iterations depth,
      (∀ e, Run.Restores (Run.evaluate iterations depth e)) ∧
      (∀ t, Run.Restores (Run.execute iterations depth t)) ∧
      (∀ chain frame body, Run.Restores (Run.executeBlock (Run.execute iterations depth) chain frame body)) ∧
      (∀ c vs, Run.Restores (Run.callClosure (Run.execute iterations depth) c vs)) ∧
      (∀ id vs, Run.Restores (Run.instantiate (Run.execute iterations depth) id vs)) ∧
      ∀ callee vs line, Run.Restores (Run.call (Run.execute iterations depth) callee vs line)) ∧
    s.machine.chain = Heap.globalChain ∧
    (∀ source, (s.run source).1.machine.chain = Heap.globalChain) ∧
    ∀ source program, Accepted source program → ∀ before t after,
      (Stmt.resolveProgram program).value = before ++ t :: after →
      Resolver.VisitsNode program .top (.stmt t) ∧
        ∀ v m, s.machine.run s.limits before = (.ok v, m) → m.chain = Heap.globalChain := by
  refine ⟨fun iterations depth => ⟨Run.restores_evaluate _ _, Run.restores_execute _ _, Run.restores_executeBlock _,
    Run.restores_callClosure _ _, Run.restores_instantiate _ _, Run.restores_call _ _⟩, reached.chain,
    fun source => ?_, fun source program accepted before t after split => ⟨?_, fun v m ran => ?_⟩⟩
  · obtain ⟨_, reached'⟩ := reached.run source
    exact reached'.chain
  · have here : t ∈ (Stmt.resolveProgram program).value := by
      rw [split]
      exact List.mem_append_right _ List.mem_cons_self
    obtain ⟨_, only, visited⟩ := ((accepted.wellScoped List.mem_cons_self).of_mem here).label
    rwa [List.mem_singleton.1 only] at visited
  · have restored := s.machine.chain_run s.limits before
    rw [ran] at restored
    exact restored.trans reached.chain

/-- A call that fails inside a block of the function. -/
def failingCall {ρ : Type} (ref : ρ) : List (Stmt ρ) :=
  [.function (.mk ⟨"f", 1⟩ [] [.block [.expression (.unary .negate 1 (.literal .nil))]]),
    .expression (.call (.var ⟨"f", 1⟩ ref) 1 [])]

theorem accepted_failingCall : Accepted "fun f()\x7b\x7b-nil;\x7d\x7d f();" (failingCall ()) :=
  ⟨by cbv, by cbv, by cbv⟩

theorem run_failingCall (clock : Nat → Float) : ((Machine.start clock).run .standard (failingCall .global)).1 =
    .error (.error ⟨.operandNotNumber, "-", 1⟩) := by
  cbv

theorem environment_restored_failure :
    Accepted "fun f()\x7b\x7b-nil;\x7d\x7d f();" (failingCall ()) ∧ ∀ clock,
      (Session.start false .standard clock).FailsWith "fun f()\x7b\x7b-nil;\x7d\x7d f();"
        ⟨.operandNotNumber, "-", 1⟩ ∧
      ((Session.start false .standard clock).run "fun f()\x7b\x7b-nil;\x7d\x7d f();").1.machine.chain =
        Heap.globalChain := by
  refine ⟨accepted_failingCall, fun clock => ⟨?_, ?_⟩⟩
  · have resolved : (Stmt.resolveProgram (failingCall ())).value = failingCall .global := by cbv
    have stops := run_failingCall clock
    rw [← resolved] at stops
    exact failsWith_of_run rfl rfl accepted_failingCall (Prod.ext stops rfl)
  · have reached := Reached.accepted (Reached.start false .standard clock) accepted_failingCall
    exact reached.environment_restored.2.1

end Session

end LoxScript
