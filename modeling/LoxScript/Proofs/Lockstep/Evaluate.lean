import LoxScript.Proofs.Lockstep.Call

/-!
# Running programs in lockstep

The step lemmas say that one layer of evaluation keeps two machines in correspondence if the layers below do.
Induction on the depth that is left carries this to whole runs.
-/

namespace LoxScript

namespace Run

/-- Executes the statements of a program with any way to execute one statement. -/
def programWith (execute : Stmt Binding → Run Value) : Value → List (Stmt Binding) → Run Value
  | last, [] => return last
  | _, s :: ss => do
      let v ← execute s
      programWith execute v ss

theorem program_eq (limits : Limits) (last : Value) (ss : List (Stmt Binding)) :
    program limits last ss = programWith (execute limits.iterations limits.depth) last ss := by
  induction ss generalizing last with
  | nil => rfl
  | cons s ss ih =>
      unfold program programWith
      simp only [ih]

end Run

namespace UnaryOp

theorem apply_plain {op : UnaryOp} {v w : Value} (h : op.apply v = .ok w) : ∃ l, w = .plain l := by
  unfold apply at h
  split at h
  · cases h
    exact ⟨_, rfl⟩
  · cases h
  · cases h
    exact ⟨_, rfl⟩

end UnaryOp

namespace BinaryOp

theorem applyNumbers_plain {op : BinaryOp} {x y : Float} {w : Value} (h : op.applyNumbers x y = .ok w) :
    ∃ l, w = .plain l := by
  cases op with
  | slash =>
      simp only [applyNumbers] at h
      split at h
      · cases h
      · cases h
        exact ⟨_, rfl⟩
  | equal | notEqual | greater | greaterEqual | less | lessEqual | minus | plus | star =>
      cases h
      exact ⟨_, rfl⟩

/-- Operators make no objects. -/
theorem apply_plain {op : BinaryOp} {v v' w : Value} (h : op.apply v v' = .ok w) : ∃ l, w = .plain l := by
  unfold apply at h
  split at h
  · cases h
    exact ⟨_, rfl⟩
  · cases h
    exact ⟨_, rfl⟩
  · split at h
    · exact applyNumbers_plain h
    · cases h
      exact ⟨_, rfl⟩
    · cases h
  · split at h
    · exact applyNumbers_plain h
    · cases h

end BinaryOp

namespace Lockstep

variable {S : Lockstep} {X : Stop → Prop} {t : S.Stage} {Γ Γ₁ : S.Site} {r : Prop}
  {evaluate evaluate' : Expr Binding → Run Value} {execute execute' : Stmt Binding → Run Value}

/-! ## One layer -/

theorem evaluateStep (L : S.Lawful) (he : S.Evaluates X evaluate evaluate') (hx : S.Executes X execute execute') :
    S.Evaluates X (Run.evaluateStep evaluate execute) (Run.evaluateStep evaluate' execute') := by
  intro t Γ e e' hee ht
  have later : ∀ {u : S.Stage} {e e'}, t.Later u → S.expr Γ e e' →
      S.InStep X u False S.Same (evaluate e) (evaluate' e') :=
    fun hu h => he _ Γ _ _ h (hu.at L ht)
  have here := @later t
  cases L.expr_parts hee with
  | literal => exact .pure L ⟨rfl, trivial⟩
  | grouping h => exact here (.refl L t) h
  | unary hl h =>
      refine (here (.refl L t) h).bind L fun u v v' hu hv => ?_
      obtain ⟨rfl, _⟩ := hv
      exact InStep.operate L _ hl fun w hw => UnaryOp.apply_plain hw
  | binary hl ha hb =>
      refine (here (.refl L t) ha).bind L fun u v v' hu hv => ?_
      obtain ⟨rfl, _⟩ := hv
      refine (later hu hb).bind L fun w v₁ v₁' _ hv₁ => ?_
      obtain ⟨rfl, _⟩ := hv₁
      exact InStep.operate L _ hl fun w hw => BinaryOp.apply_plain hw
  | @logical op l l' a a' b b' ha hb =>
      refine (here (.refl L t) ha).bind L fun u v v' hu hv => ?_
      obtain ⟨rfl, held⟩ := hv
      cases hd : op.decidedBy v with
      | true =>
          rw [if_pos rfl, if_pos rfl]
          exact .pure L ⟨rfl, held⟩
      | false =>
          rw [if_neg Bool.false_ne_true, if_neg Bool.false_ne_true]
          exact later hu hb
  | var h => exact InStep.lookUp L ht h
  | assign h hv =>
      refine (here (.refl L t) hv).bind L fun u v v' hu hv => ?_
      obtain ⟨rfl, held⟩ := hv
      refine (InStep.store L (hu.at L ht) h held).bind L fun w _ _ hw _ => ?_
      exact .pure L ⟨rfl, held.mono hw.extent⟩
  | call hl hf hes =>
      refine (here (.refl L t) hf).bind L fun u f f' hu hf => ?_
      obtain ⟨rfl, held⟩ := hf
      have arguments := InStep.evaluateAll (r := False) L (fun v e e' hv h => later (hu.trans L hv) h) hes
      refine arguments.bind L fun w vs vs' hw hvs => ?_
      obtain ⟨rfl, hvsheld⟩ := hvs
      exact InStep.call L hx hl (held.mono hw.extent) hvsheld
  | get hn h =>
      refine (here (.refl L t) h).bind L fun u v v' hu hv => ?_
      obtain ⟨rfl, held⟩ := hv
      exact InStep.getProperty L hn held
  | @set e₁ e₁' n n' e₂ e₂' hn h hv =>
      refine (here (.refl L t) h).bind L fun u o o' hu ho => ?_
      obtain ⟨rfl, _⟩ := ho
      cases o with
      | instanceRef id =>
          refine (later hu hv).bind L fun w v v' hw hv => ?_
          obtain ⟨rfl, held⟩ := hv
          rw [← hn.text]
          have changed : S.InStep X w False (fun _ _ _ => True)
              (Run.modifyHeap (·.setField id n.text v)) (Run.modifyHeap (·.setField id n.text v)) :=
            fun m m' hm => .ok (.refl L w) (hm.setField id n.text held) trivial
          exact changed.bind L fun x _ _ hx _ => .pure L ⟨rfl, held.mono hx.extent⟩
      | plain _ | native _ | closureRef _ | classRef _ => exact .failAt L _ hn
  | this h => exact InStep.lookUp L ht h
  | super hn h => exact InStep.getSuper L hn h ht

/-- A statement that stands where code of the site `Γ` may run next, and gives nil. -/
theorem InStep.thenNil (L : S.Lawful) {α β : Type} {A : S.Stage → α → β → Prop} {x : Run α} {x' : Run β}
    (h : S.InStep X t r A x x') (hA : ∀ u a b, t.Later u → A u a b → u.At Γ) :
    S.InStep X t r (S.Done Γ) (x >>= fun _ => return .nil) (x' >>= fun _ => return .nil) :=
  h.bind L fun _ _ _ hu ha => .pure L ⟨⟨rfl, trivial⟩, hA _ _ _ hu ha⟩

theorem InStep.print (L : S.Lawful) (v : Value) :
    S.InStep X t r (fun _ _ _ => True) (Run.print v) (Run.print v) := by
  intro m m' hm
  refine .ok (.refl L t) ?_ trivial
  dsimp only
  rw [← hm.display v]
  exact hm.print (m.heap.display v)

theorem InStep.returning (L : S.Lawful) (hr : r) {v : Value} (held : t.extent.Holds v) :
    S.InStep X t r (S.Done Γ) (throw (.returning v)) (throw (.returning v)) :=
  fun _ _ hm => .returned (.refl L t) hm hr held

/-- A variable declared without initializer, or with an initializer that the site `Γ₁` surrounds. -/
theorem InStep.declareVariable (L : S.Lawful) (he : S.Evaluates X evaluate evaluate') {n n' : Name} {Γ₂ : S.Site}
    {e e' : Option (Expr Binding)} (weaker : S.Weaker Γ Γ₁) (h : Option.Rel (S.expr Γ₁) e e')
    (hd : S.declare Γ n n' Γ₂) (ht : t.At Γ) (iterations : Nat) :
    S.InStep X t r (S.Done Γ₂) (Run.executeStep iterations evaluate execute (.var n e))
      (Run.executeStep iterations evaluate' execute' (.var n' e')) := by
  cases h with
  | none =>
      have unset : ∀ v, Slot.uninitialized = .value v → t.extent.Holds v := by
        rintro v ⟨⟩
      exact (InStep.define L ht hd unset).thenNil L fun u _ _ _ hat => hat
  | some h =>
      have initializer : S.InStep X t r S.Same _ _ := (he t Γ₁ _ _ h (weaker _ _ _ ht)).anyReturn
      refine initializer.bind L fun u v v' hu hv => ?_
      obtain ⟨rfl, held⟩ := hv
      have set : ∀ w, Slot.value v = .value w → u.extent.Holds w := by
        rintro w ⟨⟩
        exact held
      exact (InStep.define L (hu.at L ht) hd set).thenNil L fun w _ _ _ hat => hat

theorem executeStep (L : S.Lawful) (iterations : Nat) (he : S.Evaluates X evaluate evaluate')
    (hx : S.Executes X execute execute') :
    S.Executes X (Run.executeStep iterations evaluate execute) (Run.executeStep iterations evaluate' execute') := by
  intro t Γ s s' Γ₁ hss ht
  have expr : ∀ {u : S.Stage} {e e'}, t.Later u → S.expr Γ e e' →
      S.InStep X u (S.returns Γ) S.Same (evaluate e) (evaluate' e') :=
    fun hu h => (he _ Γ _ _ h (hu.at L ht)).anyReturn
  have stmt : ∀ {u : S.Stage} {s s'}, t.Later u → S.stmt Γ s s' Γ →
      S.InStep X u (S.returns Γ) (S.Done Γ) (execute s) (execute' s') :=
    fun hu h => hx _ Γ _ _ _ h (hu.at L ht)
  cases L.stmt_parts hss with
  | expression h => exact (expr (.refl L t) h).mono fun u v v' hu hv => ⟨hv, hu.at L ht⟩
  | print h =>
      refine (expr (.refl L t) h).bind L fun u v v' hu hv => ?_
      obtain ⟨rfl, _⟩ := hv
      exact (InStep.print L v).thenNil L fun w _ _ hw _ => (hu.trans L hw).at L ht
  | var hweaker h hd => exact .declareVariable L he hweaker h hd ht iterations
  | block hent hb =>
      refine .onMachine fun m m' hm => ?_
      rw [hm.left, hm.right]
      have frame : S.FramesAdded t _ t.left t.right .empty .empty :=
        ⟨fun F F' hF => L.enter hF ht hent, fun name v hv => by simp at hv⟩
      have body := InStep.executeBlock L hx frame (fun h => L.returns_enter hent h) hb
      exact body.thenNil L (fun u _ _ hu _ => hu.at L ht) m m' hm
  | function hd h => exact (InStep.declareFunction L hd h ht).thenNil L fun u _ _ _ hat => hat
  | classDecl hn hc hd hms =>
      exact (InStep.declareClass L hn hc hd hms ht).thenNil L fun u _ _ _ hat => hat
  | ite hc hthen helse =>
      refine (expr (.refl L t) hc).bind L fun u v v' hu hv => ?_
      obtain ⟨rfl, _⟩ := hv
      cases v.isTruthy with
      | true =>
          rw [if_pos rfl, if_pos rfl]
          exact (stmt hu hthen).thenNil L fun w _ _ _ h => h.2
      | false =>
          rw [if_neg Bool.false_ne_true, if_neg Bool.false_ne_true]
          cases helse with
          | none => exact .pure L ⟨⟨rfl, trivial⟩, hu.at L ht⟩
          | some helse => exact (stmt hu helse).thenNil L fun w _ _ _ h => h.2
  | ret hr h =>
      cases h with
      | none => exact .returning L hr trivial
      | some h =>
          refine (expr (.refl L t) h).bind L fun u v v' hu hv => ?_
          obtain ⟨rfl, held⟩ := hv
          exact .returning L hr held
  | @loop c c' b b' hc hb =>
      have repeated : S.InStep X t (S.returns Γ) (fun _ _ _ => True)
          (Run.repeatWhile (do return (← evaluate c).isTruthy) (do let _ ← execute b) iterations)
          (Run.repeatWhile (do return (← evaluate' c').isTruthy) (do let _ ← execute' b') iterations) := by
        refine InStep.repeatWhile L (fun u hu => ?_) (fun u hu => ?_) iterations
        · refine (expr hu hc).bind L fun w v v' hw hv => .pure L ?_
          obtain ⟨rfl, _⟩ := hv
          rfl
        · exact (stmt hu hb).bind L fun w _ _ _ _ => .pure L trivial
      exact repeated.thenNil L fun u _ _ hu _ => hu.at L ht

/-! ## Whole runs -/

theorem evaluate_execute (L : S.Lawful) (iterations depth : Nat) :
    S.Evaluates X (Run.evaluate iterations depth) (Run.evaluate iterations depth) ∧
      S.Executes X (Run.execute iterations depth) (Run.execute iterations depth) := by
  induction depth with
  | zero => exact ⟨fun _ _ _ _ _ _ => .halt L .overflow, fun _ _ _ _ _ _ _ => .halt L .overflow⟩
  | succ depth ih => exact ⟨evaluateStep L ih.1 ih.2, executeStep L iterations ih.1 ih.2⟩

/-- If an overflow of the second run is excused, the first may be nested more deeply. -/
theorem evaluate_execute_deeper (L : S.Lawful) (h : X .overflow) (iterations depth more : Nat) :
    S.Evaluates X (Run.evaluate iterations (depth + more)) (Run.evaluate iterations depth) ∧
      S.Executes X (Run.execute iterations (depth + more)) (Run.execute iterations depth) := by
  induction depth with
  | zero => exact ⟨fun _ _ _ _ _ _ _ _ _ => .excused h (by simp), fun _ _ _ _ _ _ _ _ _ _ => .excused h (by simp)⟩
  | succ depth ih =>
      rw [Nat.add_right_comm]
      exact ⟨evaluateStep L ih.1 ih.2, executeStep L iterations ih.1 ih.2⟩

theorem evaluate_execute_le (L : S.Lawful) (h : X .overflow) (iterations : Nat) {depth more : Nat}
    (le : depth ≤ more) :
    S.Evaluates X (Run.evaluate iterations more) (Run.evaluate iterations depth) ∧
      S.Executes X (Run.execute iterations more) (Run.execute iterations depth) := by
  obtain ⟨extra, rfl⟩ := Nat.exists_eq_add_of_le le
  exact evaluate_execute_deeper L h iterations depth extra

theorem InStep.programWith (L : S.Lawful) (hx : S.Executes X execute execute') {ss ss' : List (Stmt Binding)}
    (h : S.Stmts Γ ss ss') (hr : S.returns Γ → r) (ht : t.At Γ) {last : Value} (hlast : t.extent.Holds last) :
    S.InStep X t r S.Same (Run.programWith execute last ss) (Run.programWith execute' last ss') := by
  induction h generalizing t last with
  | nil => exact .pure L ⟨rfl, hlast⟩
  | cons hss _ ih =>
      have first := hx t _ _ _ _ hss ht
      have first' : S.InStep X t r _ _ _ := fun m m' hm => (first m m' hm).mono hr fun _ _ _ _ h => h
      refine first'.bind L fun u v v' hu hv => ?_
      obtain ⟨⟨rfl, held⟩, hat⟩ := hv
      exact ih (fun h => hr ((L.stmt_parts hss).returns L h)) hat held

/-- Corresponding programs run in lockstep. -/
theorem InStep.program (L : S.Lawful) {ss ss' : List (Stmt Binding)} (limits : Limits) (h : S.Stmts Γ ss ss')
    (hr : S.returns Γ → r) (ht : t.At Γ) :
    S.InStep X t r S.Same (Run.program limits .nil ss) (Run.program limits .nil ss') := by
  rw [Run.program_eq, Run.program_eq]
  exact .programWith L (evaluate_execute L _ _).2 h hr ht trivial

end Lockstep

end LoxScript
