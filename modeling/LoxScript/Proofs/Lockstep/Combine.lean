import LoxScript.Proofs.Lockstep.Basic

/-!
# Composing computations in lockstep

One law for each combinator of running programs: if the parts run in lockstep, so does the whole.
-/

namespace LoxScript.Lockstep

variable {S : Lockstep} {X : Stop → Prop} {α β γ δ : Type} {t u : S.Stage} {r : Prop}

/-! ## Moments -/

theorem Stage.Later.refl (L : S.Lawful) (t : S.Stage) : t.Later t :=
  ⟨L.le_refl _, .refl _, rfl, rfl⟩

theorem Stage.Later.trans (L : S.Lawful) {t u v : S.Stage} (h : t.Later u) (h' : u.Later v) : t.Later v :=
  ⟨L.le_trans h.world h'.world, h.extent.trans h'.extent, h'.left.trans h.left, h'.right.trans h.right⟩

theorem Stage.Later.at (L : S.Lawful) {t u : S.Stage} {Γ : S.Site} (h : t.Later u) (ht : t.At Γ) : u.At Γ := by
  have moved := L.chain_mono h.world ht
  rw [← h.left, ← h.right] at moved
  exact moved

theorem StmtMatch.returns (L : S.Lawful) {Γ Γ₁ : S.Site} {s s' : Stmt Binding} (h : S.StmtMatch Γ s s' Γ₁)
    (h₁ : S.returns Γ₁) : S.returns Γ := by
  cases h with
  | expression | print | block | ite | ret | loop => exact h₁
  | var _ _ hd => exact L.returns_declare hd h₁
  | function hd _ => exact L.returns_declare hd h₁
  | classDecl _ _ hd _ => exact L.returns_declare hd h₁

/-! ## Results -/

variable {A : S.Stage → α → β → Prop} {B : S.Stage → γ → δ → Prop}

theorem Outcome.mono {r r' : Prop} {A' : S.Stage → α → β → Prop} {x : EStateM.Result Stop Machine α}
    {x' : EStateM.Result Stop Machine β} (h : S.Outcome X t r A x x') (hr : r → r')
    (hA : ∀ u a b, t.Later u → A u a b → A' u a b) : S.Outcome X t r' A' x x' := by
  cases h with
  | ok hu hs ha => exact .ok hu hs (hA _ _ _ hu ha)
  | returned hu hs h hv => exact .returned hu hs (hr h) hv
  | halted hu hs h => exact .halted hu hs h
  | excused he hr => exact .excused he hr

/-- A computation that was begun later. -/
theorem Outcome.earlier (L : S.Lawful) (hu : t.Later u) {x : EStateM.Result Stop Machine α}
    {x' : EStateM.Result Stop Machine β} (h : S.Outcome X u r A x x') : S.Outcome X t r A x x' := by
  cases h with
  | ok hv hs ha => exact .ok (hu.trans L hv) hs ha
  | returned hv hs h hheld => exact .returned (hu.trans L hv) hs h hheld
  | halted hv hs h => exact .halted (hu.trans L hv) hs h
  | excused he hr => exact .excused he hr

/-- What never returns early may stand where returning is allowed. -/
theorem InStep.anyReturn {x : Run α} {x' : Run β} (h : S.InStep X t False A x x') : S.InStep X t r A x x' :=
  fun m m' hm => (h m m' hm).mono False.elim fun _ _ _ _ ha => ha

theorem InStep.mono {A' : S.Stage → α → β → Prop} {x : Run α} {x' : Run β} (h : S.InStep X t r A x x')
    (hA : ∀ u a b, t.Later u → A u a b → A' u a b) : S.InStep X t r A' x x' :=
  fun m m' hm => (h m m' hm).mono id hA

theorem InStep.pure (L : S.Lawful) {a : α} {b : β} (h : A t a b) :
    S.InStep X t r A (Pure.pure a) (Pure.pure b) :=
  fun _ _ hm => .ok (.refl L t) hm h

theorem InStep.halt (L : S.Lawful) {s s' : Stop} (h : S.Halts s s') :
    S.InStep X t r A (MonadExcept.throw s) (MonadExcept.throw s') :=
  fun _ _ hm => .halted (.refl L t) hm h

theorem InStep.fail (L : S.Lawful) {Γ : S.Site} {l l' : Int} (cause : RuntimeCause) (lexeme : String)
    (h : S.line Γ l l') : S.InStep X t r A (Run.fail cause lexeme l) (Run.fail cause lexeme l') :=
  .halt L (.error (L.failure_line h))

theorem InStep.failAt (L : S.Lawful) {Γ : S.Site} {n n' : Name} (cause : RuntimeCause) (h : S.Label Γ n n') :
    S.InStep X t r A (Run.failAt cause n) (Run.failAt cause n') := by
  unfold Run.failAt
  rw [h.text]
  exact .fail L cause _ h.line

theorem InStep.bind (L : S.Lawful) {x : Run α} {x' : Run β} {f : α → Run γ} {f' : β → Run δ}
    (hx : S.InStep X t r A x x') (hf : ∀ u a b, t.Later u → A u a b → S.InStep X u r B (f a) (f' b)) :
    S.InStep X t r B (x >>= f) (x' >>= f') := by
  intro m m' hm
  have h := hx m m' hm
  show S.Outcome X t r B (EStateM.bind x f m) (EStateM.bind x' f' m')
  unfold EStateM.bind
  generalize x m = y at h
  generalize x' m' = y' at h
  cases h with
  | ok hu hs ha => exact (hf _ _ _ hu ha _ _ hs).earlier L hu
  | returned hu hs h hv => exact .returned hu hs h hv
  | halted hu hs h => exact .halted hu hs h
  | excused he hr =>
      cases y with
      | ok a m => exact .excused he hr
      | error s m => exact .excused he hr

/-! ## Combinators -/

theorem Store.within {m m' : Machine} (hm : S.Store t m m') (c c' : Chain) :
    S.Store (t.within c c') { m with chain := c } { m' with chain := c' } :=
  { hm with left := rfl, right := rfl }

theorem Stage.Later.back {c c' : Chain} (h : (t.within c c').Later u) :
    t.Later (u.within t.left t.right) :=
  ⟨h.world, h.extent, rfl, rfl⟩

/-- Both machines come back to the environments of the first moment. -/
theorem InStep.inChain {A' : S.Stage → α → β → Prop} {c c' : Chain} {x : Run α} {x' : Run β}
    (h : S.InStep X (t.within c c') r A x x')
    (hA : ∀ u a b, (t.within c c').Later u → A u a b → A' (u.within t.left t.right) a b) :
    S.InStep X t r A' (Run.inChain c x) (Run.inChain c' x') := by
  intro m m' hm
  have hx := h _ _ (hm.within c c')
  unfold Run.inChain
  dsimp only
  rw [hm.left, hm.right]
  generalize x { m with chain := c } = y at hx
  generalize x' { m' with chain := c' } = y' at hx
  cases hx with
  | ok hu hs ha =>
      have hs' := hs.within t.left t.right
      exact .ok hu.back hs' (hA _ _ _ hu ha)
  | returned hu hs h hv =>
      have hs' := hs.within t.left t.right
      exact .returned hu.back hs' h hv
  | halted hu hs h =>
      have hs' := hs.within t.left t.right
      exact .halted hu.back hs' h
  | excused he hr =>
      cases y with
      | ok a m => exact .excused he hr
      | error s m => exact .excused he hr

/-- A return statement in the body of a function ends only the call. -/
theorem InStep.catchReturn {A : S.Stage → Unit → Unit → Prop} {x x' : Run Unit}
    (h : S.InStep X t True A x x') :
    S.InStep X t r (fun u => Option.Rel (S.Same u)) (Run.catchReturn x) (Run.catchReturn x') := by
  intro m m' hm
  have hx := h m m' hm
  unfold Run.catchReturn
  generalize x m = y at hx
  generalize x' m' = y' at hx
  cases hx with
  | ok hu hs ha => exact .ok hu hs .none
  | returned hu hs h hv => exact .ok hu hs (.some ⟨rfl, hv⟩)
  | halted hu hs h =>
      cases h with
      | error he => exact .halted hu hs (.error he)
      | overflow => exact .halted hu hs .overflow
      | exhausted => exact .halted hu hs .exhausted
      | fault hf => exact .halted hu hs (.fault hf)
  | @excused _ _ s' he hr =>
      cases s' with
      | returning v => exact absurd rfl (hr v)
      | error e => exact .excused he hr
      | overflow => exact .excused he hr
      | exhausted => exact .excused he hr
      | fault f => exact .excused he hr

def SameTruth (_ : S.Stage) (b b' : Bool) : Prop := b = b'

theorem InStep.repeatWhile (L : S.Lawful) {condition condition' : Run Bool} {body body' : Run Unit}
    (hc : ∀ u, t.Later u → S.InStep X u r SameTruth condition condition')
    (hb : ∀ u, t.Later u → S.InStep X u r (fun _ _ _ => True) body body') (budget : Nat) :
    S.InStep X t r (fun _ _ _ => True) (Run.repeatWhile condition body budget)
      (Run.repeatWhile condition' body' budget) := by
  induction budget generalizing t with
  | zero => exact .halt L .exhausted
  | succ budget ih =>
      refine (hc t (.refl L t)).bind L fun u b b' hu hbb => ?_
      cases hbb
      cases b with
      | false => exact .pure L trivial
      | true =>
          refine (hb u hu).bind L fun v _ _ hv _ => ?_
          exact ih (fun w hw => hc w (hu.trans L (hv.trans L hw)))
            (fun w hw => hb w (hu.trans L (hv.trans L hw)))

theorem InStep.evaluateAll (L : S.Lawful) {Γ : S.Site} {evaluate evaluate' : Expr Binding → Run Value}
    (he : ∀ u e e', t.Later u → S.expr Γ e e' → S.InStep X u r S.Same (evaluate e) (evaluate' e'))
    {es es' : List (Expr Binding)} (h : List.Forall₂ (S.expr Γ) es es') :
    S.InStep X t r (fun u vs vs' => vs = vs' ∧ ∀ v ∈ vs, u.extent.Holds v) (Run.evaluateAll evaluate es)
      (Run.evaluateAll evaluate' es') := by
  induction h generalizing t with
  | nil => exact .pure L ⟨rfl, by simp⟩
  | cons hee _ ih =>
      refine (he t _ _ (.refl L t) hee).bind L fun u v v' hu hv => ?_
      refine (ih fun w e e' hw => he w e e' (hu.trans L hw)).bind L fun w vs vs' hw hvs => ?_
      obtain ⟨rfl, held⟩ := hvs
      obtain ⟨rfl, hheld⟩ := hv
      refine .pure L ⟨rfl, fun x hx => ?_⟩
      rcases List.mem_cons.1 hx with rfl | hx
      · exact hheld.mono hw.extent
      · exact held x hx

theorem InStep.executeAll (L : S.Lawful) {execute execute' : Stmt Binding → Run Value}
    (hx : ∀ u Γ s s' Γ₁, t.Later u → S.stmt Γ s s' Γ₁ → (S.returns Γ → r) → u.At Γ →
      S.InStep X u r (S.Done Γ₁) (execute s) (execute' s'))
    {Γ : S.Site} {ss ss' : List (Stmt Binding)} (h : S.Stmts Γ ss ss') (hr : S.returns Γ → r) (ht : t.At Γ) :
    S.InStep X t r (fun _ _ _ => True) (Run.executeAll execute ss) (Run.executeAll execute' ss') := by
  induction h generalizing t with
  | nil => exact .pure L trivial
  | cons hss _ ih =>
      refine (hx t _ _ _ _ (.refl L t) hss hr ht).bind L fun u v v' hu hv => ?_
      exact ih (fun w Γ s s' Γ₁ hw => hx w Γ s s' Γ₁ (hu.trans L hw))
        (fun h => hr ((L.stmt_parts hss).returns L h)) hv.2

end LoxScript.Lockstep
