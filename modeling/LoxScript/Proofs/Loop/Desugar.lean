import LoxScript.Proofs.Loop.Alike
import LoxScript.Proofs.Loop.Run

/-!
# Desugared loops mean what the loops mean

Wherever the desugared statement of a loop may run, it does what the loop does. The statement needs up to three
levels more for its parts than the loop does.
-/

namespace LoxScript

def Run.Overflows (y : EStateM.Result Stop Machine Value) : Prop :=
  ∃ m, y = .error .overflow m

theorem Machine.EndsAlike.overflows {m : Machine} {y y' : EStateM.Result Stop Machine Value}
    (h : m.EndsAlike y y') (overflows : Run.Overflows y) : Run.Overflows y' := by
  obtain ⟨_, rfl⟩ := overflows
  cases h with
  | stop _ _ => exact ⟨_, rfl⟩

namespace ForLoop

variable {t : (agreement Unlabelled).Stage} {Γ : Context} {l : ForLoop Binding} {m : Machine}

/-- The loop with its parts as deep as they are in the desugared statement, and that statement. -/
theorem Nested.runNested_endsAlike (h : l.Nested Γ) (well : l.desugar.Scoped Unlabelled Γ) (settled : Γ.Settled)
    (hd : l.body.declared? = none) (hs : (agreement Unlabelled).Store t m m) (ht : t.At Γ) (iterations depth : Nat) :
    m.EndsAlike (l.unnested.runNested iterations depth m) (Run.execute iterations (depth + 1) l.desugar m) := by
  have itself : (agreement Unlabelled).stmt Γ l.desugar l.desugar (Γ.after l.desugar) := ⟨rfl, well, settled, rfl⟩
  have runs := (Lockstep.evaluate_execute (X := fun _ => False) (agreement.lawful Unlabelled) iterations (depth + 1)).2
  have safe := agreement.endsFaultless (runs t Γ _ _ _ itself ht m m hs) hs.frames.1
  exact padded.endsAlike hs
    (h.runNested settled hd (padded.at_alone hs ht) depth m m (padded.store_alone hs)) safe

/-- A loop ends alike with more depth for its parts, unless it overflows. -/
theorem Scoped.runWith_endsAlike (h : l.Scoped Γ) (settled : Γ.Settled)
    (hs : (agreement Unlabelled).Store t m m) (ht : t.At Γ) (iterations : Nat) {start evaluate execute step : Nat}
    {start' evaluate' execute' step' : Nat} (hstart : start ≤ start') (hevaluate : evaluate ≤ evaluate')
    (hexecute : execute ≤ execute') (hstep : step ≤ step') :
    Run.Overflows (l.runWith iterations (Run.execute iterations start) (Run.evaluate iterations evaluate)
        (Run.execute iterations execute) (Run.evaluate iterations step) m) ∨
      m.EndsAlike
        (l.runWith iterations (Run.execute iterations start') (Run.evaluate iterations evaluate')
          (Run.execute iterations execute') (Run.evaluate iterations step') m)
        (l.runWith iterations (Run.execute iterations start) (Run.evaluate iterations evaluate)
          (Run.execute iterations execute) (Run.evaluate iterations step) m) := by
  have deeper {depth more : Nat} (le : depth ≤ more) :=
    Lockstep.evaluate_execute_le (X := fun s => s = .overflow) (agreement.lawful Unlabelled) rfl iterations le
  have ran := h.runWith settled ht iterations (deeper hstart).2 (deeper hevaluate).1 (deeper hexecute).2
    (deeper hstep).1
  rcases agreement.endsAlike hs ht (ran m m hs) with ⟨_, _, rfl, overflows⟩ | alike
  · exact .inl ⟨_, overflows⟩
  · exact .inr alike

/-- The desugared statement does what the loop does, unless it is nested too deeply; and where the loop is not nested
too deeply, the desugared statement does what the loop does with three levels more. -/
theorem Nested.endsAlike (h : l.Nested Γ) (well : l.desugar.Scoped Unlabelled Γ) (settled : Γ.Settled)
    (hd : l.body.declared? = none) (hs : (agreement Unlabelled).Store t m m) (ht : t.At Γ) (iterations depth : Nat) :
    (Run.Overflows (Run.execute iterations depth l.desugar m) ∨
      m.EndsAlike (l.unnested.execute iterations depth m) (Run.execute iterations depth l.desugar m)) ∧
    (Run.Overflows (l.unnested.execute iterations depth m) ∨
      m.EndsAlike (l.unnested.execute iterations depth m) (Run.execute iterations (depth + 3) l.desugar m)) := by
  have parts := h.unnested settled hd
  have nested := h.runNested_endsAlike well settled hd hs ht iterations
  cases depth with
  | zero => exact ⟨.inl ⟨m, rfl⟩, .inl ⟨m, rfl⟩⟩
  | succ depth =>
      constructor
      -- The parts of the statement have at most as much depth left as those of the loop.
      · have body : depth - l.unnested.initializer.isSome.toNat - l.unnested.increment.isSome.toNat ≤ depth := by omega
        have step : depth - l.unnested.initializer.isSome.toNat - 2 ≤ depth := by omega
        rcases parts.runWith_endsAlike settled hs ht iterations (Nat.le_refl depth) (Nat.sub_le _ _) body step
          with overflows | alike
        · exact .inl ((nested depth).overflows overflows)
        · exact .inr (alike.trans (nested depth))
      -- Three levels more make up for the two blocks, the loop between them and the expression statement.
      · have initializer := Bool.toNat_le l.unnested.initializer.isSome
        have increment := Bool.toNat_le l.unnested.increment.isSome
        have start : depth ≤ depth + 3 := Nat.le_add_right depth 3
        have condition : depth ≤ depth + 3 - l.unnested.initializer.isSome.toNat := by omega
        have body : depth ≤ depth + 3 - l.unnested.initializer.isSome.toNat -
          l.unnested.increment.isSome.toNat := by omega
        have step : depth ≤ depth + 3 - l.unnested.initializer.isSome.toNat - 2 := by omega
        rcases parts.runWith_endsAlike settled hs ht iterations start condition body step with overflows | alike
        · exact .inl overflows
        · exact .inr (alike.symm.trans (nested (depth + 3)))

end ForLoop

end LoxScript
