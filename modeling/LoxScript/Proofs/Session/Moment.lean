import Mathlib
import LoxScript.Proofs.Environment.Moment
import LoxScript.Proofs.Session.Phases

/-!
# Environments at every moment of a session

Resolution and the running program agree on the shape of environments, also in functions and methods that an
earlier text has declared.
-/

namespace LoxScript.Session

/-- Whenever an accepted program that is run in a reached session is about to evaluate an expression or to execute
a statement, this piece was visited by resolution with scopes that the environment fits, in this program or in one
that was accepted earlier. The superclass of a class was visited where the class is declared already, and is read
where the name of the class need not be bound yet. Every reference that is about to be followed finds its name. -/
theorem Reached.environment_fits {programs : List (List (Stmt Unit))} {s : Session} (reached : Reached programs s)
    {source : String} {program : List (Stmt Unit)} (accepted : Accepted source program)
    {n : Node Binding} {m : Machine}
    (comes : s.machine.ComesTo s.limits (Stmt.resolveProgram program).value n m) :
    m.Answers n ∧ ∃ p ∈ program :: programs, ∃ Γ, Resolver.VisitsNode p Γ n ∧
      Fits m.heap.frames Γ.scopes m.chain ∧
      ∀ name superclass ref methods, n = .stmt (.classDecl name (some (superclass, ref)) methods) →
        Resolver.VisitsNode p (Γ.mark name.text true) (.expr (.var superclass ref)) ∧
        Fits m.heap.frames (Γ.mark name.text false).scopes m.chain := by
  have sound : s.machine.Sound (VisitedIn (program :: programs)) :=
    reached.sound fun p hp => List.mem_cons_of_mem _ hp
  obtain ⟨Γ, stands, fits⟩ := sound.stands (accepted.wellScoped List.mem_cons_self) comes
  refine ⟨Machine.answers_of_stands stands fits, ?_⟩
  obtain ⟨p, hp, visited⟩ := stands.label
  refine ⟨p, hp, Γ, visited, fits, fun name superclass ref methods same => ?_⟩
  subst same
  refine ⟨visited.superclass ?_, fits.unpassed name.text⟩
  cases stands.1 with
  | classDecl _ _ hsuper _ => exact (hsuper (superclass, ref) rfl).1

/-! ### A variable that a function has captured -/

namespace Captured

/-- A block declares a variable and a function that reads it, and the function is kept in a global variable. -/
def source : String :=
  "var g;\x7bvar a=nil;fun f()\x7bprint a;\x7dg=f;\x7d"

def function {ρ : Type} (inner : ρ) : FunctionDecl ρ :=
  .mk ⟨"f", 1⟩ [] [.print (.var ⟨"a", 1⟩ inner)]

def program {ρ : Type} (global own inner : ρ) : List (Stmt ρ) :=
  [.var ⟨"g", 1⟩ none, .block [.var ⟨"a", 1⟩ (some (.literal .nil)), .function (function inner),
    .expression (.assign ⟨"g", 1⟩ global (.var ⟨"f", 1⟩ own))]]

def call {ρ : Type} (global : ρ) : List (Stmt ρ) :=
  [.expression (.call (.var ⟨"g", 1⟩ global) 1 [])]

theorem accepted : Accepted source (program () () ()) :=
  ⟨by cbv, by cbv, by cbv⟩

theorem accepted_call : Accepted "g();" (call ()) :=
  ⟨by cbv, by cbv, by cbv⟩

def machine (clock : Nat → Float) (further : List Frame) : Machine :=
  { Machine.start clock with
    heap :=
      { frames := (⟨[("clock", .value (.native .clock)), ("g", .value (.closureRef 0))]⟩ ::
          ⟨[("a", .value .nil), ("f", .value (.closureRef 0))]⟩ :: further).toArray
        closures := #[⟨function (.scoped 1), [1, 0], false⟩], classes := #[], instances := #[] } }

/-- The machine when the function, called from the second text, is about to read the variable. -/
def moment (clock : Nat → Float) : Machine :=
  { machine clock [.empty] with chain := [2, 1, 0] }

theorem resolved : (Stmt.resolveProgram (program () () ())).value = program .global (.scoped 0) (.scoped 1) := by
  cbv

def session (clock : Nat → Float) : Session :=
  ((Session.start false .standard clock).run source).1

theorem session_eq (clock : Nat → Float) :
    (session clock).machine = machine clock [] ∧ (session clock).limits = .standard := by
  rw [session, run_of_accepted rfl rfl accepted, resolved]
  exact ⟨by cbv, by cbv⟩

def use : Expr Binding :=
  .var ⟨"a", 1⟩ (.scoped 1)

/-- The call comes to the reference in the body of the function. -/
theorem comes (clock : Nat → Float) :
    (machine clock []).ComesTo .standard (call .global) (.expr use) (moment clock) := by
  intro stop other
  generalize hhit : (fun n' m' => n' = Node.expr use ∧ m' = moment clock) = hit
  have hit_use : hit (.expr use) (moment clock) := by
    rw [← hhit]
    exact ⟨rfl, rfl⟩
  have not_hit : ∀ {n m}, n ≠ Node.expr use → ¬ hit n m := by
    intro n m ne h
    rw [← hhit] at h
    exact ne h.1
  let iterations := Limits.standard.iterations
  have callee : Run.evaluateTo hit stop iterations 4998 (.var ⟨"g", 1⟩ .global) (machine clock []) =
      .ok (.closureRef 0) (machine clock []) :=
    (Run.evaluateTo_of_not_hit stop _ _ (not_hit (by simp [use]))).trans rfl
  have body : Run.executeTo hit stop iterations 4998 (.print use) (moment clock) = .error stop (moment clock) := by
    rw [Run.executeTo_of_not_hit _ _ _ (not_hit (by simp))]
    exact Run.bind_of_error _ (Run.evaluateTo_of_hit _ _ _ hit_use)
  have left : Run.callClosure (Run.executeTo hit stop iterations 4998) ⟨function (.scoped 1), [1, 0], false⟩ []
      (machine clock []) = .error stop { moment clock with chain := Heap.globalChain } :=
    Run.callClosure_of_error other body
  refine ⟨{ moment clock with chain := Heap.globalChain }, Run.bind_of_error _ ?_⟩
  refine (Run.executeTo_of_not_hit _ _ _ (not_hit (by simp))).trans ?_
  refine (Run.evaluateTo_of_not_hit _ _ _ (not_hit (by simp [use]))).trans ?_
  exact (Run.bind_of_ok _ callee).trans left

theorem session_comes (clock : Nat → Float) :
    (session clock).machine.ComesTo (session clock).limits (Stmt.resolveProgram (call ())).value (.expr use)
      (moment clock) := by
  have resolved : (Stmt.resolveProgram (call ())).value = call .global := by cbv
  obtain ⟨machine, limits⟩ := session_eq clock
  rw [machine, limits, resolved]
  exact comes clock

end Captured

/-- A function kept from an earlier text is called, and a reference in it leads to the variable that it has captured:
one frame out, of three. -/
theorem environment_fits_captured :
    Accepted Captured.source (Captured.program () () ()) ∧ Accepted "g();" (Captured.call ()) ∧ ∀ clock,
      (Captured.session clock).machine.ComesTo (Captured.session clock).limits
        (Stmt.resolveProgram (Captured.call ())).value (.expr Captured.use) (Captured.moment clock) ∧
      (Captured.moment clock).chain = [2, 1, 0] ∧ (Captured.moment clock).Binds 1 "a" ∧
      ∃ p ∈ [Captured.call (), Captured.program () () ()], ∃ Γ, Resolver.VisitsNode p Γ (.expr Captured.use) ∧
        Fits (Captured.moment clock).heap.frames Γ.scopes [2, 1, 0] ∧ Γ.scopes.length = 2 := by
  refine ⟨Captured.accepted, Captured.accepted_call, fun clock => ?_⟩
  have comes := Captured.session_comes clock
  have reached := (Reached.start false .standard clock).accepted Captured.accepted
  obtain ⟨answers, p, hp, Γ, visited, fits, _⟩ := reached.environment_fits Captured.accepted_call comes
  exact ⟨comes, rfl, answers 1 rfl, p, hp, Γ, visited, fits, (Nat.succ.inj fits.length_eq).symm⟩

end LoxScript.Session
