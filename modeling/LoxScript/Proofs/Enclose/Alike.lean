import Mathlib
import LoxScript.Proofs.Enclose.Run
import LoxScript.Proofs.Lockstep.Ends
import LoxScript.Proofs.Scope.Complete
import LoxScript.Proofs.Session.Reached

/-!
# Local and global variables behave alike

A program whose own variables are declared once and used after their declarations is accepted in a block, too,
and prints the same and ends alike there. The block itself takes one level of nesting.
-/

namespace LoxScript

namespace Run

/-- The machine inside a block that was just opened. -/
def opened (m : Machine) : Machine :=
  { m with heap := (m.heap.addFrame .empty).2, chain := m.heap.frames.size :: m.chain }

theorem executeAll_eq (execute : Stmt Binding → Run Value) (last : Value) (ss : List (Stmt Binding)) :
    executeAll execute ss = (do let _ ← programWith execute last ss) := by
  induction ss generalizing last with
  | nil => rfl
  | cons s ss ih =>
      unfold executeAll programWith
      rw [bind_assoc]
      exact congrArg _ (funext fun v => ih v)

/-- A program that is a single block runs like the statements of the block, one level deeper and in a new scope. -/
theorem program_block (iterations depth : Nat) (body : List (Stmt Binding)) (m : Machine) :
    program ⟨depth + 1, iterations⟩ .nil [.block body] m =
      match programWith (execute iterations depth) .nil body (opened m) with
      | .ok _ m' => .ok .nil { m' with chain := m.chain }
      | .error stop m' => .error stop { m' with chain := m.chain } := by
  have split : program ⟨depth + 1, iterations⟩ .nil [.block body] m =
      (do inChain (m.heap.frames.size :: m.chain) (executeAll (execute iterations depth) body)
          return Value.nil : Run Value) { m with heap := (m.heap.addFrame .empty).2 } := by
    unfold program program execute executeStep executeBlock
    rw [bind_pure]
    rfl
  rw [split, executeAll_eq _ .nil]
  cases h : programWith (execute iterations depth) .nil body (opened m) with
  | ok v m' => exact bind_of_ok _ (inChain_of_ok (bind_of_ok _ h))
  | error stop m' => exact bind_of_error _ (inChain_of_error (bind_of_error _ h))

end Run

namespace Enclosed

def start : Enclosed := ⟨1, fun _ => False⟩

theorem agrees_start {T : List String} (h : Native.clock.name ∉ T) :
    start.Agrees T Heap.start.frames (Heap.start.addFrame .empty).2.frames where
  size := rfl
  size' := rfl
  pos := Nat.zero_lt_one
  moved id x hx := by
    show Frames.find? (Heap.start.frames.push .empty) (id + 1) x = _
    have absent : Heap.start.frames.find? id x = none := by
      cases found : Heap.start.frames.find? id x with
      | none => rfl
      | some slot =>
          obtain ⟨rfl, rfl, _⟩ := Lockstep.find?_start found
          exact absurd hx (by simpa using h)
    rw [absent, Frames.find?_push]
    split
    · rfl
    · cases found : Heap.start.frames.find? (id + 1) x with
      | none => rfl
      | some slot => cases (Lockstep.find?_start found).1
  global x _ := by
    show Frames.find? (Heap.start.frames.push .empty) Heap.globalFrame x = _
    rw [Frames.find?_push]
    rfl
  bound _ h := h.elim

theorem covers_start : start.Covers ⟨0, []⟩ Heap.globalChain (1 :: Heap.globalChain) where
  right := rfl
  length := rfl
  frame j id hid := by
    cases j with
    | zero =>
        cases hid
        exact ⟨Nat.zero_lt_one, Iff.rfl⟩
    | succ j => simp [Heap.globalChain] at hid
  bound _ h := by cases h

end Enclosed

namespace Lockstep

variable {S : Lockstep} {X : Stop → Prop} {t : S.Stage} {r : Prop} {A : S.Stage → Value → Value → Prop}

/-- The statements of a program and those of a block that run in lockstep. -/
theorem Outcome.endAlike_block {limits : Limits} {iterations depth : Nat} {ss body : List (Stmt Binding)}
    {m m' : Machine}
    (h : S.Outcome X t r A (Run.program limits .nil ss m)
      (Run.programWith (Run.execute iterations depth) .nil body (Run.opened m')))
    (safe : SafeEnd (m.run limits ss).1) :
    EndAlike (fun _ _ _ _ => True) S.failure (m.run limits ss) (m'.run ⟨depth + 1, iterations⟩ [.block body]) ∨
      ∃ s, X s ∧ (m'.run ⟨depth + 1, iterations⟩ [.block body]).1 = .error s := by
  unfold Machine.run at safe ⊢
  rw [Run.program_block]
  generalize Run.program limits .nil ss m = x at h safe ⊢
  generalize Run.programWith (Run.execute iterations depth) .nil body (Run.opened m') = x' at h ⊢
  cases h with
  | ok _ hs _ => exact .inl (.value hs.printed trivial)
  | returned => cases safe
  | halted _ hs halts =>
      cases halts with
      | error he => exact .inl (.error hs.printed he)
      | overflow => exact .inl (.overflow hs.printed)
      | exhausted => exact .inl (.exhausted hs.printed)
      | fault => cases safe
  | excused hx _ => exact .inr ⟨_, hx, rfl⟩

end Lockstep

/-- The own variables of a program are declared once, and used only after their declarations. -/
structure Stmt.Enclosable (program : List (Stmt Binding)) : Prop where
  distinct : (Stmt.declarations program).Nodup
  other : Native.clock.name ∉ Stmt.declarations program
  order : Stmt.InOrder (Stmt.declarations program) [] program

variable {source : String} {program : List (Stmt Unit)}

/-- Resolution gives the enclosed program. -/
theorem Accepted.resolve_block (accepted : Accepted source program)
    (h : Stmt.Enclosable (Stmt.resolveProgram program).value) :
    (Stmt.resolveProgram [.block program]).value =
        [.block (Stmt.encloseAll (Stmt.declarations (Stmt.resolveProgram program).value) 0
          (Stmt.resolveProgram program).value)] ∧
      (Stmt.resolveProgram [.block program]).errors = [] := by
  have kept := Stmt.resolveProgram_forget (accepted.unlabelled.enclose_block h.distinct h.order)
  have same : Stmt.forgetAll [.block (Stmt.encloseAll (Stmt.declarations (Stmt.resolveProgram program).value) 0
      (Stmt.resolveProgram program).value)] = [.block program] := by
    rw [Stmt.forgetAll, Stmt.forgetAll, Stmt.forget, Stmt.forgetAll_encloseAll, Stmt.forgetAll_resolveProgram]
  rwa [same] at kept

/-- Putting an accepted program in a block makes its own variables local, and changes neither what it prints nor
how it ends. With the same limits the block may be nested too deeply where the program just is not. -/
theorem Accepted.enclose_alike (accepted : Accepted source program)
    (h : Stmt.Enclosable (Stmt.resolveProgram program).value) :
    (Stmt.resolveProgram [.block program]).errors = [] ∧
      ∀ limits clock,
        EndAlike (fun _ _ _ _ => True) Eq
          ((Machine.start clock).run limits (Stmt.resolveProgram program).value)
          ((Machine.start clock).run { limits with depth := limits.depth + 1 }
            (Stmt.resolveProgram [.block program]).value) ∧
        (EndAlike (fun _ _ _ _ => True) Eq
            ((Machine.start clock).run limits (Stmt.resolveProgram program).value)
            ((Machine.start clock).run limits (Stmt.resolveProgram [.block program]).value) ∨
          ((Machine.start clock).run limits (Stmt.resolveProgram [.block program]).value).1 = .error .overflow) := by
  obtain ⟨resolved, quiet⟩ := accepted.resolve_block h
  refine ⟨quiet, fun limits clock => ?_⟩
  rw [resolved]
  have well := accepted.unlabelled
  generalize (Stmt.resolveProgram program).value = ss at h well
  have plain : ∀ x ∈ Stmt.declarations ss, Keyword.ofText? x = none := by
    intro x hx
    obtain ⟨s, hs, hd⟩ := List.mem_filterMap.1 hx
    obtain ⟨n, hn, rfl⟩ := Option.map_eq_some_iff.1 hd
    exact well.identifier s hs n hn
  have lawful := enclosed.lawful plain
  let T := Stmt.declarations ss
  let t : (enclosed T).Stage := ⟨.start, ⟨0, 0, 0⟩, Heap.globalChain, 1 :: Heap.globalChain⟩
  have store : (enclosed T).Store t (Machine.start clock) (Run.opened (Machine.start clock)) :=
    .start (Enclosed.agrees_start h.other) (1 :: Heap.globalChain) clock
  have corresponds : (enclosed T).Stmts (⟨0, []⟩ : Inside) ss (Stmt.encloseAll T 0 ss) :=
    enclosed.program well h.order fun x hx => hx
  have safe := ((Machine.Sound.start Unlabelled clock).run well limits).2
  have top : t.At (⟨0, []⟩ : Inside) := Enclosed.covers_start
  have plainly : t.extent.Holds .nil := trivial
  obtain ⟨depth, iterations⟩ := limits
  -- Both runs have the same depth left for the statements themselves.
  have runs {X : Stop → Prop} {inner : Nat} (he : (enclosed T).Executes X (Run.execute iterations depth)
      (Run.execute iterations inner)) :=
    Lockstep.InStep.programWith (r := True) lawful he corresponds (fun _ => trivial) top plainly _ _ store
  simp only [← Run.program_eq ⟨depth, iterations⟩] at runs
  constructor
  · rcases (runs (Lockstep.evaluate_execute (X := fun _ => False) lawful iterations depth).2).endAlike_block safe
      with alike | ⟨_, hx, _⟩
    · exact alike
    · exact hx.elim
  · cases depth with
    | zero => exact .inr rfl
    | succ depth =>
        have deeper := (Lockstep.evaluate_execute_deeper (X := fun s => s = .overflow) lawful rfl iterations depth 1).2
        rcases (runs deeper).endAlike_block safe with alike | ⟨_, rfl, overflow⟩
        · exact .inl alike
        · exact .inr overflow

/-- A variable is used in a function that is declared after it, and assigned to before the function is called. -/
theorem enclose_alike_function :
    Accepted "var a;fun f()\x7bprint a;\x7da=nil;f();"
        [.var ⟨"a", 1⟩ none, .function (.mk ⟨"f", 1⟩ [] [.print (.var ⟨"a", 1⟩ ())]),
          .expression (.assign ⟨"a", 1⟩ () (.literal .nil)), .expression (.call (.var ⟨"f", 1⟩ ()) 1 [])] ∧
      Stmt.Enclosable [.var ⟨"a", 1⟩ none, .function (.mk ⟨"f", 1⟩ [] [.print (.var ⟨"a", 1⟩ .global)]),
        .expression (.assign ⟨"a", 1⟩ .global (.literal .nil)), .expression (.call (.var ⟨"f", 1⟩ .global) 1 [])] ∧
      ∀ limits clock, EndAlike (fun _ _ _ _ => True) Eq
        ((Machine.start clock).run limits
          [.var ⟨"a", 1⟩ none, .function (.mk ⟨"f", 1⟩ [] [.print (.var ⟨"a", 1⟩ .global)]),
            .expression (.assign ⟨"a", 1⟩ .global (.literal .nil)), .expression (.call (.var ⟨"f", 1⟩ .global) 1 [])])
        ((Machine.start clock).run { limits with depth := limits.depth + 1 }
          [.block [.var ⟨"a", 1⟩ none, .function (.mk ⟨"f", 1⟩ [] [.print (.var ⟨"a", 1⟩ (.scoped 1))]),
            .expression (.assign ⟨"a", 1⟩ (.scoped 0) (.literal .nil)),
            .expression (.call (.var ⟨"f", 1⟩ (.scoped 0)) 1 [])]]) := by
  have accepted : Accepted "var a;fun f()\x7bprint a;\x7da=nil;f();"
      [.var ⟨"a", 1⟩ none, .function (.mk ⟨"f", 1⟩ [] [.print (.var ⟨"a", 1⟩ ())]),
        .expression (.assign ⟨"a", 1⟩ () (.literal .nil)), .expression (.call (.var ⟨"f", 1⟩ ()) 1 [])] :=
    ⟨by cbv, by cbv, by cbv⟩
  have enclosable : Stmt.Enclosable [.var ⟨"a", 1⟩ none, .function (.mk ⟨"f", 1⟩ [] [.print (.var ⟨"a", 1⟩ .global)]),
      .expression (.assign ⟨"a", 1⟩ .global (.literal .nil)), .expression (.call (.var ⟨"f", 1⟩ .global) 1 [])] :=
    ⟨by decide, by decide, by decide⟩
  exact ⟨accepted, enclosable, fun limits clock => ((accepted.enclose_alike enclosable).2 limits clock).1⟩

end LoxScript
