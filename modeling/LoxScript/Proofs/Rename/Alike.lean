import Mathlib
import LoxScript.Proofs.Rename.Run
import LoxScript.Proofs.Scope.Complete
import LoxScript.Proofs.Session.Reached

/-!
# Local variables can be renamed

The program with a renamed variable is accepted, too. In a fresh session both programs print the same and end
alike, since before they run all frames are equal and none is marked.
-/

namespace LoxScript

namespace Renaming

/-- The frame of the global variables is the only one, and not marked. -/
def Marking.start : Marking := ⟨1, fun _ => false⟩

theorem Marking.agrees_start (σ : Renaming) : Marking.start.Agrees σ Heap.start.frames Heap.start.frames where
  size := rfl
  size' := rfl
  pos := Nat.zero_lt_one
  global := rfl
  find _ _ := rfl

theorem Marking.covers_start : Marking.start.Covers none Heap.globalChain := by
  intro j id hid
  cases j with
  | zero =>
      cases hid
      exact ⟨Nat.zero_lt_one, by simp [start]⟩
  | succ j => simp [Heap.globalChain] at hid

end Renaming

variable {σ : Renaming} {source : String} {program : List (Stmt Unit)} {renamed : List (Stmt Binding)}

/-- Renaming one variable of an accepted program keeps every distance, and both programs run alike. -/
theorem Accepted.rename_alike (accepted : Accepted source program) (plain : Keyword.ofText? σ.new = none)
    (fresh : σ.new ∉ Stmt.namesAll program) (hr : Stmts.Renames σ (Stmt.resolveProgram program).value renamed) :
    (Stmt.resolveProgram (Stmt.forgetAll renamed)).errors = [] ∧
      (Stmt.resolveProgram (Stmt.forgetAll renamed)).value = renamed ∧
      ∀ limits clock, EndAlike Machine.SameResult σ.SameError
        ((Machine.start clock).run limits (Stmt.resolveProgram program).value)
        ((Machine.start clock).run limits renamed) := by
  have well := accepted.unlabelled
  have absent : σ.new ∉ Stmt.namesAll (Stmt.resolveProgram program).value := by
    rw [← Stmt.namesAll_forgetAll, Stmt.forgetAll_resolveProgram]
    exact fresh
  obtain ⟨both, kept⟩ := Stmts.Renames.scoped plain _ hr well absent
  obtain ⟨same, quiet⟩ := Stmt.resolveProgram_forget kept
  refine ⟨quiet, same, fun limits clock => ?_⟩
  have frames : σ.renamed.frames Renaming.Marking.start Heap.start.frames Heap.start.frames :=
    Renaming.Marking.agrees_start σ
  let start : σ.renamed.Stage := ⟨Renaming.Marking.start, ⟨0, 0, 0⟩, Heap.globalChain, Heap.globalChain⟩
  have store : σ.renamed.Store start _ _ := .start frames Heap.globalChain clock
  have safe := ((Machine.Sound.start Unlabelled clock).run well limits).2
  have top : start.At (none : Option Nat) :=
    ⟨rfl, nofun, Renaming.Marking.covers_start⟩
  have lawful := Renaming.renamed.lawful both
  have corresponds := Renaming.renamed.renames_stmts hr well absent
  exact Lockstep.run_endAlike lawful corresponds top store safe

/-- A parameter is renamed, whose use stands before a variable of the same name is declared further inside. -/
theorem rename_alike_parameter :
    Accepted "fun f(a)\x7b\x7bprint a;var a=nil;print a;\x7d\x7d"
        [.function (.mk ⟨"f", 1⟩ [⟨"a", 1⟩] [.block [.print (.var ⟨"a", 1⟩ ()),
          .var ⟨"a", 1⟩ (some (.literal .nil)), .print (.var ⟨"a", 1⟩ ())]])] ∧
      ∀ limits clock, EndAlike Machine.SameResult (Renaming.SameError ⟨"a", "z"⟩)
        ((Machine.start clock).run limits
          [.function (.mk ⟨"f", 1⟩ [⟨"a", 1⟩] [.block [.print (.var ⟨"a", 1⟩ (.scoped 1)),
            .var ⟨"a", 1⟩ (some (.literal .nil)), .print (.var ⟨"a", 1⟩ (.scoped 0))]])])
        ((Machine.start clock).run limits
          [.function (.mk ⟨"f", 1⟩ [⟨"z", 1⟩] [.block [.print (.var ⟨"z", 1⟩ (.scoped 1)),
            .var ⟨"a", 1⟩ (some (.literal .nil)), .print (.var ⟨"a", 1⟩ (.scoped 0))]])]) := by
  have accepted : Accepted "fun f(a)\x7b\x7bprint a;var a=nil;print a;\x7d\x7d"
      [.function (.mk ⟨"f", 1⟩ [⟨"a", 1⟩] [.block [.print (.var ⟨"a", 1⟩ ()),
        .var ⟨"a", 1⟩ (some (.literal .nil)), .print (.var ⟨"a", 1⟩ ())]])] :=
    ⟨by cbv, by cbv, by cbv⟩
  have renames : Stmts.Renames ⟨"a", "z"⟩
      [.function (.mk ⟨"f", 1⟩ [⟨"a", 1⟩] [.block [.print (.var ⟨"a", 1⟩ (.scoped 1)),
        .var ⟨"a", 1⟩ (some (.literal .nil)), .print (.var ⟨"a", 1⟩ (.scoped 0))]])]
      [.function (.mk ⟨"f", 1⟩ [⟨"z", 1⟩] [.block [.print (.var ⟨"z", 1⟩ (.scoped 1)),
        .var ⟨"a", 1⟩ (some (.literal .nil)), .print (.var ⟨"a", 1⟩ (.scoped 0))]])] :=
    .head (.function (.scope (.inl ⟨_, List.mem_singleton_self _, rfl⟩)))
  exact ⟨accepted, (accepted.rename_alike (by decide) (by decide) renames).2.2⟩

end LoxScript
