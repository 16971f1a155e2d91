import LoxScript.Proofs.Lockstep.Evaluate

/-!
# How runs end

A program comes to a value or to a runtime error, unless it runs out of depth or iterations. Two runs in
lockstep print the same and end alike.
-/

namespace LoxScript

/-- The ends of a run in which no reference is broken and no return statement stands outside of functions. -/
inductive SafeEnd : Except Stop Value → Prop where
  | value {v} : SafeEnd (.ok v)
  | error {e} : SafeEnd (.error (.error e))
  | overflow : SafeEnd (.error .overflow)
  | exhausted : SafeEnd (.error .exhausted)

/-- Two runs that print the same and end alike, with results that `V` relates or with errors that `E` relates. -/
inductive EndAlike (V : Machine → Value → Machine → Value → Prop) (E : RuntimeError → RuntimeError → Prop) :
    Except Stop Value × Machine → Except Stop Value × Machine → Prop where
  | value {v v' m m'} : m.printed = m'.printed → V m v m' v' → EndAlike V E (.ok v, m) (.ok v', m')
  | error {e e' m m'} : m.printed = m'.printed → E e e' →
      EndAlike V E (.error (.error e), m) (.error (.error e'), m')
  | overflow {m m'} : m.printed = m'.printed → EndAlike V E (.error .overflow, m) (.error .overflow, m')
  | exhausted {m m'} : m.printed = m'.printed → EndAlike V E (.error .exhausted, m) (.error .exhausted, m')

def Machine.SameResult (m : Machine) (v : Value) (m' : Machine) (v' : Value) : Prop :=
  v = v' ∧ m.heap.display v = m'.heap.display v'

namespace Lockstep

variable {S : Lockstep} {X : Stop → Prop} {t : S.Stage} {r : Prop} {A : S.Stage → Value → Value → Prop}
  {V : Machine → Value → Machine → Value → Prop} {limits limits' : Limits} {ss ss' : List (Stmt Binding)}
  {m m' : Machine}

theorem Outcome.endAlike (h : S.Outcome X t r A (Run.program limits .nil ss m) (Run.program limits' .nil ss' m'))
    (hV : ∀ u m m' v v', A u v v' → S.Store u m m' → V m v m' v') (safe : SafeEnd (m.run limits ss).1) :
    EndAlike V S.failure (m.run limits ss) (m'.run limits' ss') ∨
      ∃ s, X s ∧ (m'.run limits' ss').1 = .error s := by
  unfold Machine.run at safe ⊢
  generalize Run.program limits .nil ss m = x at h safe ⊢
  generalize Run.program limits' .nil ss' m' = x' at h ⊢
  cases h with
  | ok _ hs ha => exact .inl (.value hs.printed (hV _ _ _ _ _ ha hs))
  | returned => cases safe
  | halted _ hs halts =>
      cases halts with
      | error he => exact .inl (.error hs.printed he)
      | overflow => exact .inl (.overflow hs.printed)
      | exhausted => exact .inl (.exhausted hs.printed)
      | fault => cases safe
  | excused hx _ => exact .inr ⟨_, hx, rfl⟩

/-- Programs that run in lockstep end alike. -/
theorem run_endAlike (L : S.Lawful) {Γ : S.Site} (h : S.Stmts Γ ss ss') (ht : t.At Γ) (hm : S.Store t m m')
    (safe : SafeEnd (m.run limits ss).1) :
    EndAlike Machine.SameResult S.failure (m.run limits ss) (m'.run limits ss') := by
  have ran : S.Outcome (fun _ => False) t True S.Same _ _ :=
    InStep.program L limits h (fun _ => trivial) ht m m' hm
  have result : ∀ u m m' v v', S.Same u v v' → S.Store u m m' → Machine.SameResult m v m' v' := by
    rintro u m m' v v' ⟨rfl, _⟩ hs
    exact ⟨rfl, hs.display v⟩
  rcases ran.endAlike result safe with alike | ⟨_, hx, _⟩
  · exact alike
  · exact hx.elim

end Lockstep

end LoxScript
