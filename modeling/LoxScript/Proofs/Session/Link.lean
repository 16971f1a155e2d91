import LoxScript.Proofs.Environment.Link
import LoxScript.Proofs.Session.State

/-!
# Links in a session

The environments of all texts that a session has run belong to one lineage, which only grows.
-/

namespace LoxScript

namespace Session

variable {programs : List (List (Stmt Unit))} {s : Session} {running : Option String} {m : Machine}

theorem Reached.descends (reached : Reached programs s) : ∃ L, s.machine.Descends L := by
  have ran : ∀ (s : Session) (source : String), (∃ L, s.machine.Descends L) →
      ∃ L, (s.run source).1.machine.Descends L := by
    rintro s source ⟨L, before⟩
    rcases s.run_machine source with same | ⟨program, _, ran⟩
    · exact ⟨L, same ▸ before⟩
    · obtain ⟨L', _, after⟩ := before.run s.limits (Stmt.resolveProgram program).value
      exact ⟨L', ran ▸ after.forgetPrinted⟩
  induction reached with
  | start showTree limits clock => exact ⟨_, .start clock⟩
  | accepted _ _ ih => exact ran _ _ ih
  | rejected _ _ ih => exact ran _ _ ih
  | console console _ ih => exact ih

/-- Whatever texts have run, and at every moment at which one is running, the links between environments and from
classes to their superclasses lead to older objects, those of environments on to the global one. So every loop along
them ends, after no more rounds than there are older objects. -/
theorem Reached.links_older (reached : Reached programs s) (state : s.State running m) :
    ∃ enclosing, m.WellLinked enclosing ∧ m.LoopsEnd enclosing := by
  obtain ⟨L, before⟩ := reached.descends
  cases state with
  | between => exact ⟨L.enclosing, before.wellLinked, before.loopsEnd⟩
  | during comes =>
      obtain ⟨program, _, comes⟩ := comes
      obtain ⟨L', now⟩ := before.comes comes
      exact ⟨L'.enclosing, now.wellLinked, now.loopsEnd⟩

/-- A class whose name is bound anew to a class that inherits from it through another. -/
def redeclaredBase {ρ : Type} (ref : ρ) : List (Stmt ρ) :=
  [.classDecl ⟨"A", 1⟩ none [], .classDecl ⟨"B", 1⟩ (some (⟨"A", 1⟩, ref)) [],
    .classDecl ⟨"A", 1⟩ (some (⟨"B", 1⟩, ref)) []]

theorem accepted_redeclaredBase :
    Accepted "class A \x7b\x7d class B < A \x7b\x7d class A < B \x7b\x7d" (redeclaredBase ()) :=
  ⟨by cbv, by cbv, by cbv⟩

theorem superclasses_redeclaredBase (clock : Nat → Float) :
    ((Machine.start clock).run .standard (redeclaredBase .global)).2.heap.classes.toList.map ClassObject.superclass =
      [none, some 0, some 1] := by
  cbv

/-- The new class leads to the old one of its name, and no further. -/
theorem links_older_redeclared :
    Accepted "class A \x7b\x7d class B < A \x7b\x7d class A < B \x7b\x7d" (redeclaredBase ()) ∧ ∀ clock, ∃ m enclosing,
      ((Session.start false .standard clock).run "class A \x7b\x7d class B < A \x7b\x7d class A < B \x7b\x7d").1.State
        none m ∧ m.WellLinked enclosing ∧ m.LoopsEnd enclosing ∧
        m.heap.classes.toList.map ClassObject.superclass = [none, some 0, some 1] := by
  refine ⟨accepted_redeclaredBase, fun clock => ?_⟩
  have reached := Reached.accepted (Reached.start false .standard clock) accepted_redeclaredBase
  obtain ⟨enclosing, wellLinked, loopsEnd⟩ := reached.links_older .between
  refine ⟨_, enclosing, .between, wellLinked, loopsEnd, ?_⟩
  have resolved : (Stmt.resolveProgram (redeclaredBase ())).value = redeclaredBase .global := by cbv
  have machine : (Session.start false .standard clock).machine = Machine.start clock := rfl
  have limits : (Session.start false .standard clock).limits = .standard := rfl
  rw [run_of_accepted rfl rfl accepted_redeclaredBase, interpret_machine, resolved, machine, limits]
  dsimp only
  exact superclasses_redeclaredBase clock

end Session

end LoxScript
