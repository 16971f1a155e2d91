import LoxScript.Proofs.Environment.Agreement
import LoxScript.Proofs.Lockstep.Ends

/-!
# Sound machines

A machine in which every function and every class was made by a well-scoped program, in an environment that
fits. Running another well-scoped program keeps it so, however the run ends.
-/

namespace LoxScript

/-- Machines back in top-level code that only well-scoped programs have worked on. -/
def Machine.Sound (P : Context → Node Binding → Prop) (m : Machine) : Prop :=
  ∃ t : (agreement P).Stage, t.left = Heap.globalChain ∧ t.right = Heap.globalChain ∧ (agreement P).Store t m m

namespace Machine.Sound

variable {P : Context → Node Binding → Prop} {m : Machine}

theorem start (P : Context → Node Binding → Prop) (clock : Nat → Float) : (Machine.start clock).Sound P := by
  have own : Heap.start.frames.Own := by
    refine ⟨fun id slot h => ?_, fun id slot h => ?_⟩
    · have := (Lockstep.find?_start h).2.1
      simp [Keyword.text, Native.name] at this
    · have := (Lockstep.find?_start h).2.1
      simp [Keyword.text, Native.name] at this
  have frames : (agreement P).frames Heap.start.frames Heap.start.frames Heap.start.frames :=
    ⟨rfl, rfl, own, by simp [Heap.start]⟩
  exact ⟨_, rfl, rfl, Lockstep.Store.start frames Heap.globalChain clock⟩

/-- What was printed does not matter. -/
theorem forgetPrinted (h : m.Sound P) : Machine.Sound P { m with printed := #[] } := by
  obtain ⟨t, hleft, hright, hs⟩ := h
  exact ⟨t, hleft, hright, { hs with printed := rfl }⟩

/-- Code of the top level may run in a sound machine. -/
theorem atTop {t : (agreement P).Stage} (hleft : t.left = Heap.globalChain) (hright : t.right = Heap.globalChain) :
    t.At Context.top := by
  unfold Lockstep.Stage.At
  rw [hleft, hright]
  exact ⟨rfl, .global⟩

theorem settled_top : Context.top.Settled :=
  { passed := fun scope hs => by simp [Context.top] at hs
    shaped := fun hc => absurd rfl hc }

/-- A run of a well-scoped program ends safely and leaves a sound machine. -/
theorem run (h : m.Sound P) {program : List (Stmt Binding)} (hp : Stmts.Scoped P .top program) (limits : Limits) :
    (m.run limits program).2.Sound P ∧ SafeEnd (m.run limits program).1 := by
  obtain ⟨t, hleft, hright, hs⟩ := h
  have top : (agreement P).returns Context.top → False := fun h => h rfl
  have ran := Lockstep.InStep.program (agreement.lawful P) (X := fun _ => False) limits
    (agreement.stmts hp settled_top) top (atTop hleft hright) m m hs
  unfold Machine.run
  generalize Run.program limits .nil program m = x at ran
  cases ran with
  | ok hu hs' hv => exact ⟨⟨_, hu.left.trans hleft, hu.right.trans hright, hs'⟩, .value⟩
  | returned hu hs' hr _ => exact hr.elim
  | halted hu hs' hh =>
      refine ⟨⟨_, hu.left.trans hleft, hu.right.trans hright, hs'⟩, ?_⟩
      cases hh with
      | error _ => exact .error
      | overflow => exact .overflow
      | exhausted => exact .exhausted
      | fault hf => exact hf.elim
  | excused hx _ => exact hx.elim

end Machine.Sound

end LoxScript
