import Mathlib
import LoxScript.Proofs.Run.Moved

/-!
# Where an error stands

A runtime error has the line of a token, and the token stands in the program that runs or in a function that the
heap keeps from earlier programs. To tell which, the program and the kept functions are moved to other lines
independently. Both moves are read off one run in which the lines of the kept functions are even and those of the
program are odd.
-/

namespace LoxScript

variable (f g : Int → Int)

/-! ## Marked lines -/

/-- The line behind a marked one: an even line is that of a kept function, an odd one that of the program. -/
def unmark (n : Int) : Int :=
  if n % 2 = 0 then f (n / 2) else g (n / 2)

theorem unmark_kept : unmark f g ∘ (2 * ·) = f := by
  funext n
  have even : 2 * n % 2 = 0 := by omega
  have half : 2 * n / 2 = n := by omega
  simp [unmark, even, half]

theorem unmark_own : unmark f g ∘ (2 * · + 1) = g := by
  funext n
  have half : (2 * n + 1) / 2 = n := by omega
  simp [unmark, half]

namespace Machine

variable {m : Machine} {limits : Limits} {program : List (Stmt Binding)} {e : RuntimeError}

def runMarked (m : Machine) (limits : Limits) (program : List (Stmt Binding)) : Except Stop Value × Machine :=
  (m.mapLines (2 * ·)).run limits (program.map (Stmt.mapLines (2 * · + 1)))

/-- All runs that differ in lines only are one. -/
theorem run_apart (m : Machine) (limits : Limits) (program : List (Stmt Binding)) (p : Array String) :
    (m.moved f p).run limits (program.map (Stmt.mapLines g)) =
      ((m.runMarked limits program).1.mapError (Stop.mapLine (unmark f g)),
        (m.runMarked limits program).2.moved (unmark f g) p) := by
  have kept : (m.mapLines (2 * ·)).moved (unmark f g) p = m.moved f p := by
    have heaps := congrArg heap (m.mapLines_mapLines (2 * ·) (unmark f g))
    rw [unmark_kept] at heaps
    exact congrArg (fun h => { m with heap := h, printed := p ++ m.printed }) heaps
  have own : (program.map (Stmt.mapLines (2 * · + 1))).map (Stmt.mapLines (unmark f g)) =
      program.map (Stmt.mapLines g) := by
    rw [List.map_map]
    refine List.map_congr_left fun s _ => ?_
    rw [Function.comp_apply, Stmt.mapLines_mapLines, unmark_own]
  rw [← kept, ← own, run_moved]
  rfl

theorem moved_empty : m.moved f #[] = m.mapLines f := by
  simp [moved, mapLines]

theorem run_eq_apart : m.run limits program = (m.mapLines id).run limits (program.map (Stmt.mapLines id)) := by
  have same : Stmt.mapLines (ρ := Binding) id = id := funext Stmt.mapLines_id
  rw [m.mapLines_id, same, List.map_id]

theorem run_mapLines (m : Machine) (limits : Limits) (program : List (Stmt Binding)) :
    (m.mapLines f).run limits (program.map (Stmt.mapLines g)) =
      ((m.runMarked limits program).1.mapError (Stop.mapLine (unmark f g)),
        (m.runMarked limits program).2.mapLines (unmark f g)) := by
  rw [← moved_empty, run_apart, moved_empty]

/-- Whether there is an error does not depend on lines. -/
theorem exists_error_mapLines :
    (∃ e, ((m.mapLines f).run limits (program.map (Stmt.mapLines g))).1 = .error (.error e)) ↔
    ∃ e, (m.run limits program).1 = .error (.error e) := by
  have marked : ∀ f g, (∃ e, ((m.mapLines f).run limits (program.map (Stmt.mapLines g))).1 = .error (.error e)) ↔
      ∃ e, (m.runMarked limits program).1 = .error (.error e) := by
    intro f g
    rw [run_mapLines]
    dsimp only
    cases (m.runMarked limits program).1 with
    | ok v => exact ⟨nofun, nofun⟩
    | error stop =>
        cases stop with
        | error e => exact ⟨fun _ => ⟨e, rfl⟩, fun _ => ⟨e.mapLine _, rfl⟩⟩
        | returning | overflow | exhausted | fault => exact ⟨nofun, nofun⟩
  rw [marked, run_eq_apart, marked]

/-! ## Errors of the program and of kept functions -/

/-- The program fails at a token of its own: the error moves with the program, wherever kept functions stand. -/
def FailsInside (m : Machine) (limits : Limits) (program : List (Stmt Binding)) (e : RuntimeError) : Prop :=
  ∀ f g, ((m.mapLines f).run limits (program.map (Stmt.mapLines g))).1 = .error (.error (e.mapLine g))

/-- The program fails at a token of a kept function: the error moves with the kept functions, wherever the program
stands. -/
def FailsOutside (m : Machine) (limits : Limits) (program : List (Stmt Binding)) (e : RuntimeError) : Prop :=
  ∀ f g, ((m.mapLines f).run limits (program.map (Stmt.mapLines g))).1 = .error (.error (e.mapLine f))

theorem FailsInside.fails (h : m.FailsInside limits program e) : (m.run limits program).1 = .error (.error e) := by
  rw [run_eq_apart]
  exact h id id

theorem FailsOutside.fails (h : m.FailsOutside limits program e) : (m.run limits program).1 = .error (.error e) := by
  rw [run_eq_apart]
  exact h id id

/-- Every error stands in the program or in a kept function. -/
theorem failsInside_or_failsOutside (h : (m.run limits program).1 = .error (.error e)) :
    m.FailsInside limits program e ∨ m.FailsOutside limits program e := by
  rw [run_eq_apart, run_mapLines] at h
  cases marked : (m.runMarked limits program).1 with
  | ok v =>
      rw [marked] at h
      cases h
  | error stop =>
      rw [marked] at h
      cases stop with
      | error e' =>
          obtain rfl : e'.mapLine (unmark id id) = e := Stop.error.inj (Except.error.inj h)
          by_cases even : e'.line % 2 = 0
          · refine .inr fun f g => ?_
            rw [run_mapLines, marked]
            simp [Except.mapError, Stop.mapLine, RuntimeError.mapLine, unmark, even]
          · refine .inl fun f g => ?_
            rw [run_mapLines, marked]
            simp [Except.mapError, Stop.mapLine, RuntimeError.mapLine, unmark, even]
      | returning | overflow | exhausted | fault => cases h

/-- No error stands in both. -/
theorem FailsInside.not_failsOutside (h : m.FailsInside limits program e) : ¬ m.FailsOutside limits program e := by
  intro h'
  have lines := (h (fun _ => 0) fun _ => 1).symm.trans (h' (fun _ => 0) fun _ => 1)
  have line : (1 : Int) = 0 := congrArg RuntimeError.line (Stop.error.inj (Except.error.inj lines))
  omega

/-- An error of a kept function has a line of one: some function or class on the heap changes when that line is
moved. -/
theorem FailsOutside.exists_kept (h : m.FailsOutside limits program e) (moves : f e.line ≠ e.line) :
    (∃ c ∈ m.heap.closures, c.mapLines f ≠ c) ∨ ∃ k ∈ m.heap.classes, k.mapLines f ≠ k := by
  refine Classical.byContradiction fun none => ?_
  simp only [not_or, not_exists, not_and, ne_eq, Classical.not_not] at none
  have closures : m.heap.closures.map (Closure.mapLines f) = m.heap.closures :=
    (Array.map_congr_left none.1).trans (Array.map_id _)
  have classes : m.heap.classes.map (ClassObject.mapLines f) = m.heap.classes :=
    (Array.map_congr_left none.2).trans (Array.map_id _)
  have unmoved : m.mapLines f = m := by simp [mapLines, Heap.mapLines, closures, classes]
  have fails := h f id
  rw [unmoved, ← m.mapLines_id, ← run_eq_apart, h.fails] at fails
  exact moves (congrArg RuntimeError.line (Stop.error.inj (Except.error.inj fails))).symm

end Machine

end LoxScript
