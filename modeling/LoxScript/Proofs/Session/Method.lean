import Mathlib
import LoxScript.Proofs.Method.Evaluate
import LoxScript.Proofs.Session.Reached

/-!
# `this` and `super` at every moment of a session

However a method came to be called, `this` is an instance of the class that the method was declared in or of one of
its subclasses, and `super` is the superclass that was recorded when that class was made.
-/

namespace LoxScript.Session

/-- In a reached session every function and every class comes from well-scoped code. -/
theorem Reached.linked {programs : List (List (Stmt Unit))} {s : Session} (h : Reached programs s) :
    s.machine.Linked := by
  induction h with
  | start showTree limits clock => exact .start clock
  | @accepted programs s source program _ _ ih | @rejected programs s source _ _ ih =>
      rcases s.run_machine source with same | ⟨other, accepted, ran⟩
      · rw [same]
        exact ih
      · rw [ran]
        exact (ih.run accepted.unlabelled s.limits).forgetPrinted
  | console console _ ih => exact ih

/-- Whenever an accepted program that is run in a reached session is about to evaluate `this` or `super`, it is in the
code of a method. Exactly one class object can have made this method; the instance that `this` gives is of this class or
of a class that inherits from it. The superclass recorded in the same class object is where `super` looks the
method up, which it binds to the same instance. -/
theorem Reached.super_static {programs : List (List (Stmt Unit))} {s : Session} (reached : Reached programs s)
    {source : String} {program : List (Stmt Unit)} (accepted : Accepted source program)
    {n : Node Binding} {m : Machine}
    (comes : s.machine.ComesTo s.limits (Stmt.resolveProgram program).value n m) :
    (∀ line ref, n = .expr (.this line ref) → ∃ d a, ref = .scoped d ∧ m.heap.Activates m.chain d n a ∧
      (∀ b, m.heap.Activates m.chain d n b → b.classId = a.classId ∧ b.object = a.object) ∧
      ∀ iterations depth, Run.evaluate iterations (depth + 1) (.this line ref) m = .ok (.instanceRef a.object) m) ∧
    ∀ line name ref, n = .expr (.super line name ref) → ∃ d a superclass, ref = .scoped (d + 1) ∧
      m.heap.Activates m.chain d n a ∧
      (∀ b, m.heap.Activates m.chain d n b → b.classId = a.classId ∧ b.object = a.object) ∧
      a.owner.superclass = some superclass ∧
      m.heap.frames.own? m.chain (d + 1) Keyword.superWord.text = some (.classRef superclass) ∧
      m.heap.frames.own? m.chain d Keyword.thisWord.text = some (.instanceRef a.object) ∧
      ∀ iterations depth, Run.evaluate iterations (depth + 1) (.super line name ref) m =
        match m.heap.method? superclass name.text with
        | some method => .ok (.closureRef m.heap.closures.size) { m with heap := m.heap.addBound a.object method }
        | none => .error (.error ⟨.undefinedProperty name.text, name.text, name.line⟩) m := by
  obtain ⟨Γ, ws, ready⟩ := reached.linked.ready accepted.unlabelled comes
  have linked := ready.linked
  refine ⟨fun line ref same => ?_, fun line name ref same => ?_⟩
  · subst same
    obtain ⟨d, a, rfl, activates⟩ := ready.this ws
    refine ⟨d, a, rfl, activates, fun b hb => ?_, fun iterations depth => ?_⟩
    · exact ⟨linked.classId_unique activates hb, activates.object_unique hb⟩
    · exact Run.lookUp_this activates line
  · subst same
    obtain ⟨d, a, superclass, rfl, activates, hs⟩ := ready.super ws
    refine ⟨d, a, superclass, rfl, activates, fun b hb => ?_, hs, ?_, ?_, fun iterations depth => ?_⟩
    · exact ⟨linked.classId_unique activates hb, activates.object_unique hb⟩
    · exact Frames.own?_eq_some.2 (linked.slotAt_super activates hs rfl)
    · exact Frames.own?_eq_some.2 (activates.slotAt_this rfl)
    · exact (Run.getSuper_eq linked activates hs name).trans (Run.boundMethod_eq superclass a.object name m)

/-! ### A method that is inherited -/

namespace Inherited

/-- The method of `B`, which uses `super`, is called for an instance of `C`. -/
def source : String :=
  "class A\x7bm()\x7b\x7d\x7d class B<A\x7bm()\x7bsuper.m;\x7d\x7d class C<B\x7b\x7d C().m();"

def method {ρ : Type} (body : List (Stmt ρ)) : FunctionDecl ρ :=
  .mk ⟨"m", 1⟩ [] body

def program {ρ : Type} (global enclosing : ρ) : List (Stmt ρ) :=
  [.classDecl ⟨"A", 1⟩ none [method []],
    .classDecl ⟨"B", 1⟩ (some (⟨"A", 1⟩, global)) [method [.expression (.super 1 ⟨"m", 1⟩ enclosing)]],
    .classDecl ⟨"C", 1⟩ (some (⟨"B", 1⟩, global)) [],
    .expression (.call (.get (.call (.var ⟨"C", 1⟩ global) 1 []) ⟨"m", 1⟩) 1 [])]

theorem accepted : Accepted source (program () ()) :=
  ⟨by cbv, by cbv, by cbv⟩

def use : Expr Binding :=
  .super 1 ⟨"m", 1⟩ (.scoped 2)

/-- The machine in top-level code when the first classes are declared. -/
def machine (clock : Nat → Float) (declared : Nat) (inner : List Frame) (closures : Array Closure)
    (instances : Array Instance) : Machine :=
  let globals : List (String × Slot) := [("clock", .value (.native .clock)), ("A", .value (.classRef 0)),
    ("B", .value (.classRef 1)), ("C", .value (.classRef 2))]
  let supers : List Frame := [.singleton "super" (.value (.classRef 0)), .singleton "super" (.value (.classRef 1))]
  let classes : List ClassObject := [⟨"A", none, .singleton "m" ⟨method [], [0], false⟩⟩,
    ⟨"B", some 0, .singleton "m" ⟨method [.expression use], [1, 0], false⟩⟩, ⟨"C", some 1, .empty⟩]
  { Machine.start clock with
    heap :=
      { frames := (⟨globals.take (declared + 1)⟩ :: (supers.take (declared - 1) ++ inner)).toArray
        closures := closures, classes := (classes.take declared).toArray, instances := instances } }

def moment (clock : Nat → Float) : Machine :=
  { machine clock 3 [.singleton "this" (.value (.instanceRef 0)), .empty]
      #[⟨method [.expression use], [3, 1, 0], false⟩] #[⟨2, .empty⟩] with
    chain := [4, 3, 1, 0] }

/-- The call comes to the use of `super`. -/
theorem comes_call (clock : Nat → Float) : (machine clock 3 [] #[] #[]).ComesTo .standard
    [.expression (.call (.get (.call (.var ⟨"C", 1⟩ .global) 1 []) ⟨"m", 1⟩) 1 [])] (.expr use) (moment clock) := by
  intro stop other
  generalize hhit : (fun n' m' => n' = Node.expr use ∧ m' = moment clock) = hit
  have hit_use : hit (.expr use) (moment clock) := by
    rw [← hhit]
    exact ⟨rfl, rfl⟩
  have not_hit : ∀ {n m}, n ≠ Node.expr use → ¬ hit n m := by
    rintro n m ne h
    rw [← hhit] at h
    exact ne h.1
  let m₀ := machine clock 3 [] #[] #[]
  let m₁ := machine clock 3 [] #[] #[⟨2, .empty⟩]
  let m₂ := machine clock 3 [.singleton "this" (.value (.instanceRef 0))]
    #[⟨method [.expression use], [3, 1, 0], false⟩] #[⟨2, .empty⟩]
  let iterations := Limits.standard.iterations
  have classC : Run.evaluateTo hit stop iterations 4996 (.var ⟨"C", 1⟩ .global) m₀ = .ok (.classRef 2) m₀ :=
    (Run.evaluateTo_of_not_hit stop _ _ (not_hit (by simp [use]))).trans rfl
  have object : Run.evaluateTo hit stop iterations 4997 (.call (.var ⟨"C", 1⟩ .global) 1 []) m₀ =
      .ok (.instanceRef 0) m₁ := by
    rw [Run.evaluateTo_of_not_hit _ _ _ (not_hit (by simp [use]))]
    exact (Run.bind_of_ok _ classC).trans (by cbv)
  have bound : Run.evaluateTo hit stop iterations 4998
      (.get (.call (.var ⟨"C", 1⟩ .global) 1 []) ⟨"m", 1⟩) m₀ = .ok (.closureRef 0) m₂ := by
    rw [Run.evaluateTo_of_not_hit _ _ _ (not_hit (by simp [use]))]
    exact (Run.bind_of_ok _ object).trans (by cbv)
  have body : Run.executeTo hit stop iterations 4998 (.expression use) (moment clock) =
      .error stop (moment clock) := by
    rw [Run.executeTo_of_not_hit _ _ _ (not_hit (by simp))]
    exact Run.evaluateTo_of_hit _ _ _ hit_use
  refine ⟨{ moment clock with chain := Heap.globalChain }, Run.bind_of_error _ ?_⟩
  refine (Run.executeTo_of_not_hit _ _ _ (not_hit (by simp))).trans ?_
  refine (Run.evaluateTo_of_not_hit _ _ _ (not_hit (by simp [use]))).trans ?_
  refine (Run.bind_of_ok _ bound).trans ?_
  have left : Run.callClosure (Run.executeTo hit stop iterations 4998)
      ⟨method [.expression use], [3, 1, 0], false⟩ [] m₂ =
        .error stop { moment clock with chain := Heap.globalChain } := Run.callClosure_of_error other body
  exact left

theorem comes (clock : Nat → Float) :
    (Machine.start clock).ComesTo .standard (program .global (.scoped 2)) (.expr use) (moment clock) := by
  have first : Run.declareClass ⟨"A", 1⟩ none [method []] (Machine.start clock) =
      .ok () (machine clock 1 [] #[] #[]) := rfl
  have second : Run.declareClass ⟨"B", 1⟩ (some (⟨"A", 1⟩, .global)) [method [.expression use]]
      (machine clock 1 [] #[] #[]) = .ok () (machine clock 2 [] #[] #[]) := rfl
  have third : Run.declareClass ⟨"C", 1⟩ (some (⟨"B", 1⟩, .global)) [] (machine clock 2 [] #[] #[]) =
      .ok () (machine clock 3 [] #[] #[]) := rfl
  have deep : 0 < Limits.standard.depth := by decide
  exact (((comes_call clock).declared third deep nofun).declared second deep nofun).declared first deep nofun

end Inherited

/-- Although the instance is of the class `C`, the method of `A` is found, because the method that is running belongs
to `B`. -/
theorem super_static_inherited :
    Accepted Inherited.source (Inherited.program () ()) ∧ ∀ clock,
      (Machine.start clock).ComesTo .standard (Inherited.program .global (.scoped 2)) (.expr Inherited.use)
        (Inherited.moment clock) ∧
      (Inherited.moment clock).heap.instances = #[⟨2, .empty⟩] ∧
      ∃ a, a.owner.superclass = some 0 ∧ a.object = 0 ∧
        (Inherited.moment clock).heap.Activates (Inherited.moment clock).chain 1 (.expr Inherited.use) a ∧
        ∀ iterations depth, Run.evaluate iterations (depth + 1) Inherited.use (Inherited.moment clock) =
          .ok (.closureRef 1)
            { Inherited.moment clock with
              heap := (Inherited.moment clock).heap.addBound 0 ⟨Inherited.method [], [0], false⟩ } := by
  refine ⟨Inherited.accepted, fun clock => ⟨Inherited.comes clock, rfl, ?_⟩⟩
  have known := (Reached.start false .standard clock).super_static Inherited.accepted (Inherited.comes clock)
  obtain ⟨d, a, superclass, ref, activates, _, hs, super, this, evaluates⟩ := known.2 1 ⟨"m", 1⟩ (.scoped 2) rfl
  obtain rfl : 1 = d := Nat.succ.inj (Binding.scoped.inj ref)
  obtain rfl : 0 = superclass := Value.classRef.inj (Option.some.inj super)
  have object : 0 = a.object := Value.instanceRef.inj (Option.some.inj this)
  have found : (Inherited.moment clock).heap.method? 0 "m" = some ⟨Inherited.method [], [0], false⟩ := by cbv
  refine ⟨a, hs, object.symm, activates, fun iterations depth => ?_⟩
  have result := evaluates iterations depth
  rw [← object, found] at result
  exact result

end LoxScript.Session
