import LoxScript.Proofs.Loop.Basic
import LoxScript.Proofs.Loop.Padded

/-!
# Loops in lockstep

A loop runs like itself with more depth left for its parts, and like the desugared statement when its parts have as
much depth left as they have there.
-/

namespace LoxScript

/-! ## Scopes of one machine and of both -/

namespace Lockstep

variable {S : Lockstep} {X : Stop → Prop} {α β : Type} {t : S.Stage} {Γ Γ₁ : S.Site} {r : Prop}
  {A : S.Stage → α → β → Prop} {x : Run α} {x' : Run β}

theorem InStep.mayReturn (h : S.InStep X t r A x x') : S.InStep X t True A x x' :=
  fun m m' hm => (h m m' hm).mono (fun _ => trivial) fun _ _ _ _ ha => ha

theorem InStep.inNewScope (L : S.Lawful) (hent : S.enter Γ Γ₁) (ht : t.At Γ)
    (h : ∀ u : S.Stage, u.At Γ₁ → S.InStep X u r (fun _ _ _ => True) x x') :
    S.InStep X t r (fun _ _ _ => True) (Run.inNewScope x) (Run.inNewScope x') := by
  refine .onMachine fun m m' hm => ?_
  rw [hm.left, hm.right]
  have frame : S.FramesAdded t Γ₁ t.left t.right .empty .empty :=
    ⟨fun F F' hF => L.enter hF ht hent, fun name v hv => by simp at hv⟩
  have inside : S.InStep X t r (fun _ _ _ => True)
      (Run.newFrame .empty >>= fun id => Run.inChain (id :: t.left) x)
      (Run.newFrame .empty >>= fun id => Run.inChain (id :: t.right) x') := by
    refine (InStep.newFrame L frame).bind L fun u id id' _ hchain => ?_
    exact (h (u.within (id :: t.left) (id' :: t.right)) hchain).inChain fun _ _ _ _ _ => trivial
  exact inside m m' hm

end Lockstep

namespace padded

variable {X : Stop → Prop} {α β : Type} {t : padded.Stage} {r : Prop} {x : Run α} {x' : Run β}

/-- Only the second machine opens a scope. -/
theorem inNewScope_right (ht : t.At .same)
    (h : ∀ u : padded.Stage, u.At (.padded 0) → padded.InStep X u r (fun _ _ _ => True) x x') :
    padded.InStep X t r (fun _ _ _ => True) x (Run.inNewScope x') := by
  intro m m' hm
  let t₁ : padded.Stage := { t with world := t.world.pushRight }
  have later : t.Later t₁ := .atWorld t t.world.le_pushRight
  have frames : t.world.pushRight.Agrees m.heap.frames (Array.push m'.heap.frames .empty) := hm.frames.pushRight .empty
  have here : padded.Store t₁ m _ := hm.reframe lawful t.world.le_pushRight frames hm.slots
  have entered : Lockstep.Stage.At (t₁.within t.left (m'.heap.frames.size :: t.right)) (.padded 0) := by
    have pushed := Padding.Chains.pushRight ht
    rwa [← hm.frames.size'] at pushed
  have ran := h _ entered m
    { m' with heap := (m'.heap.addFrame .empty).2, chain := m'.heap.frames.size :: t.right }
    { here with left := hm.left, right := rfl }
  -- The first machine has stayed where it was, the second one comes back.
  have back : ∀ {u : padded.Stage} {m₁ m₁' : Machine}, (t₁.within t.left (m'.heap.frames.size :: t.right)).Later u →
      padded.Store u m₁ m₁' →
      t.Later (u.within t.left t.right) ∧ padded.Store (u.within t.left t.right) m₁ { m₁' with chain := t.right } :=
    fun hu hs => ⟨later.trans lawful hu.back, { hs with left := hs.left.trans hu.left, right := rfl }⟩
  show padded.Outcome X t r _ (x m) (Run.inChain (m'.heap.frames.size :: m'.chain) x'
    { m' with heap := (m'.heap.addFrame .empty).2 })
  unfold Run.inChain
  dsimp only
  rw [hm.right]
  generalize x m = y at ran
  generalize x' _ = y' at ran
  cases ran with
  | ok hu hs _ => exact .ok (back hu hs).1 (back hu hs).2 trivial
  | returned hu hs h hv => exact .returned (back hu hs).1 (back hu hs).2 h hv
  | halted hu hs h => exact .halted (back hu hs).1 (back hu hs).2 h
  | excused hx hr => exact .excused hx hr

end padded

/-! ## Deeper parts -/

namespace ForLoop.Scoped

variable {X : Stop → Prop} {t u : (agreement Unlabelled).Stage} {Γ : Context} {l : ForLoop Binding}
  {evaluate evaluate' step step' : Expr Binding → Run Value} {start start' execute execute' : Stmt Binding → Run Value}

theorem test (h : l.Scoped Γ) (settled : Γ.Settled) (he : (agreement Unlabelled).Evaluates X evaluate evaluate')
    (hu : u.At (l.site Γ)) :
    (agreement Unlabelled).InStep X u True Lockstep.SameTruth (l.test evaluate) (l.test evaluate') := by
  have L := agreement.lawful Unlabelled
  unfold ForLoop.test
  cases hc : l.condition with
  | none => exact .pure L rfl
  | some c =>
      have ready := (site_settled h.initializer settled).ready
      refine (he u _ c c ⟨rfl, h.condition c hc, ready⟩ hu).mayReturn.bind L fun v a a' _ ha => .pure L ?_
      obtain ⟨rfl, _⟩ := ha
      rfl

theorem round (h : l.Scoped Γ) (settled : Γ.Settled) (hx : (agreement Unlabelled).Executes X execute execute')
    (hn : (agreement Unlabelled).Evaluates X step step') (hu : u.At (l.site Γ)) :
    (agreement Unlabelled).InStep X u True (fun _ _ _ => True) (l.round execute step) (l.round execute' step') := by
  have L := agreement.lawful Unlabelled
  have inside := site_settled h.initializer settled
  have body : (agreement Unlabelled).stmt (l.site Γ) l.body l.body (l.site Γ) :=
    ⟨rfl, h.body, inside, (Context.after_of_declared _ h.declares).symm⟩
  refine (hx u _ _ _ _ body hu).mayReturn.bind L fun v _ _ _ hv => ?_
  cases hi : l.increment with
  | none => exact .pure L trivial
  | some e =>
      exact (hn v _ e e ⟨rfl, h.increment e hi, inside.ready⟩ hv.2).mayReturn.bind L fun _ _ _ _ _ => .pure L trivial

/-- A loop runs in lockstep with itself if its parts do. -/
theorem runWith (h : l.Scoped Γ) (settled : Γ.Settled) (ht : t.At Γ) (iterations : Nat)
    (hs : (agreement Unlabelled).Executes X start start') (he : (agreement Unlabelled).Evaluates X evaluate evaluate')
    (hx : (agreement Unlabelled).Executes X execute execute') (hn : (agreement Unlabelled).Evaluates X step step') :
    (agreement Unlabelled).InStep X t True (agreement Unlabelled).Same
      (l.runWith iterations start evaluate execute step) (l.runWith iterations start' evaluate' execute' step') := by
  have L := agreement.lawful Unlabelled
  have rounds {v : (agreement Unlabelled).Stage} (hv : v.At (l.site Γ)) :=
    Lockstep.InStep.repeatWhile L (fun w hw => h.test settled he (hw.at L hv))
      (fun w hw => h.round settled hx hn (hw.at L hv)) iterations
  have whole : (agreement Unlabelled).InStep X t True (fun _ _ _ => True)
      (Run.loopFrom (l.initializer.map fun s => do let _ ← start s) (l.test evaluate) (l.round execute step) iterations)
      (Run.loopFrom (l.initializer.map fun s => do let _ ← start' s) (l.test evaluate') (l.round execute' step')
        iterations) := by
    have site : l.site Γ = l.initializer.elim Γ fun s => (Γ.push .empty).after s := by
      unfold ForLoop.site
      cases l.initializer <;> rfl
    cases hi : l.initializer with
    | none =>
        rw [hi] at site
        exact rounds (site.symm ▸ ht)
    | some s =>
        rw [hi] at site
        refine Lockstep.InStep.inNewScope L rfl ht fun v hv => ?_
        have first : (agreement Unlabelled).stmt (Γ.push .empty) s s (l.site Γ) :=
          ⟨rfl, h.initializer s hi, settled.push, site⟩
        have started : (agreement Unlabelled).InStep X v True (fun w _ _ => w.At (l.site Γ))
            (do let _ ← start s) (do let _ ← start' s) :=
          (hs v _ s s _ first hv).mayReturn.bind L fun w _ _ _ hw => .pure L hw.2
        exact started.bind L fun w _ _ _ hw => rounds hw
  exact whole.bind L fun _ _ _ _ _ => .pure L ⟨rfl, trivial⟩

end ForLoop.Scoped

/-! ## The desugared statement -/

theorem Run.execute_expression (iterations depth : Nat) (e : Expr Binding) :
    Run.execute iterations depth (.expression e) = Run.evaluate iterations (depth - 1) e := by
  cases depth <;> rfl

/-- A block of two statements. -/
theorem Run.execute_pair (iterations depth : Nat) (a b : Stmt Binding) :
    Run.execute iterations (depth + 1) (.block [a, b]) = do
      Run.inNewScope do
        let _ ← Run.execute iterations depth a
        let _ ← Run.execute iterations depth b
      return .nil := rfl

theorem Run.execute_loop (iterations depth : Nat) (c : Expr Binding) (b : Stmt Binding) :
    Run.execute iterations (depth + 1) (.loop c b) = do
      Run.repeatWhile (do return (← Run.evaluate iterations depth c).isTruthy)
        (do let _ ← Run.execute iterations depth b) iterations
      return .nil := rfl

namespace ForLoop

variable {t u : padded.Stage} {Γ : Context} {l : ForLoop Binding} {X : Stop → Prop} {iterations : Nat}

/-- Runs a loop with its parts as deep as they are in the desugared statement, of which the outermost level is
gone. -/
def runNested (iterations depth : Nat) (l : ForLoop Binding) : Run Value :=
  let inner := depth - l.initializer.isSome.toNat
  l.runWith iterations (Run.execute iterations depth) (Run.evaluate iterations inner)
    (Run.execute iterations (inner - l.increment.isSome.toNat)) (Run.evaluate iterations (inner - 2))

namespace Nested

/-- The body and the increment, and the block around them. -/
theorem round (h : l.Nested Γ) (settled : Γ.Settled) (hd : l.body.declared? = none) (hu : u.At .same) (depth : Nat) :
    padded.InStep X u True (fun _ _ _ => True)
      (l.unnested.round (Run.execute iterations (depth - l.increment.isSome.toNat))
        (Run.evaluate iterations (depth - 2)))
      (do let _ ← Run.execute iterations depth l.innerBody) := by
  have L := padded.lawful
  have runs := fun d => Lockstep.evaluate_execute (X := X) L iterations d
  unfold ForLoop.round ForLoop.unnested ForLoop.innerBody
  cases he : l.increment with
  | none =>
      exact ((runs depth).2 u .same l.body l.body .same ⟨rfl, rfl⟩ hu).mayReturn.bind L fun _ _ _ _ _ => .pure L trivial
  | some e =>
      cases depth with
      | zero => exact .halt L .overflow
      | succ depth =>
          obtain ⟨hb, hn⟩ := h.inBlock he hd
          have inside := (site_settled h.initializer settled).push
          have blank : ((l.site Γ).push .empty).Blank 0 := rfl
          have body : padded.stmt (.padded 0) (l.body.without 0) l.body (.padded 0) :=
            ⟨rfl, rfl, fun _ => hd, _, blank, inside, hb⟩
          have step : padded.expr (.padded 0) (e.without 0) e := ⟨rfl, _, blank, inside.ready, hn⟩
          rw [Run.execute_pair, Run.execute_expression, bind_assoc]
          simp only [pure_bind, bind_pure_unit]
          refine padded.inNewScope_right hu fun v hv => ?_
          refine ((runs depth).2 v _ _ _ _ body hv).mayReturn.bind L fun w _ _ _ hw => ?_
          exact ((runs (depth - 1)).1 w _ _ _ step hw.2).mayReturn.bind L fun _ _ _ _ _ => .pure L trivial

/-- The rounds of the loop, and those of the statement that repeats the body and the increment. -/
theorem repeated (h : l.Nested Γ) (settled : Γ.Settled) (hd : l.body.declared? = none) (hu : u.At .same)
    (depth : Nat) :
    padded.InStep X u True (fun _ _ _ => True)
      (Run.repeatWhile (l.unnested.test (Run.evaluate iterations depth))
        (l.unnested.round (Run.execute iterations (depth - l.increment.isSome.toNat))
          (Run.evaluate iterations (depth - 2))) iterations)
      (Run.repeatWhile
        (do return (← Run.evaluate iterations depth (l.condition.getD (.literal (.bool true)))).isTruthy)
        (do let _ ← Run.execute iterations depth l.innerBody) iterations) := by
  have L := padded.lawful
  have runs := fun d => Lockstep.evaluate_execute (X := X) L iterations d
  have rounds {v : padded.Stage} (hv : u.Later v) : padded.InStep X v True (fun _ _ _ => True)
      (l.unnested.round (Run.execute iterations (depth - l.increment.isSome.toNat))
        (Run.evaluate iterations (depth - 2)))
      (do let _ ← Run.execute iterations depth l.innerBody) :=
    h.round settled hd (hv.at L hu) depth
  cases hc : l.condition with
  | some c =>
      refine Lockstep.InStep.repeatWhile L (fun v hv => ?_) (fun v hv => rounds hv) iterations
      unfold ForLoop.test
      have condition : l.unnested.condition = some c := hc
      rw [condition]
      refine ((runs depth).1 v .same c c rfl (hv.at L hu)).mayReturn.bind L fun w a a' _ ha => .pure L ?_
      obtain ⟨rfl, _⟩ := ha
      rfl
  | none =>
      have absent : l.unnested.test (Run.evaluate iterations depth) = return true := by
        unfold ForLoop.test
        have condition : l.unnested.condition = none := hc
        rw [condition]
      rw [absent]
      cases depth with
      | succ depth =>
          exact Lockstep.InStep.repeatWhile L (fun v hv => .pure L rfl) (fun v hv => rounds hv) iterations
      | zero =>
          -- No depth is left for the condition on one side and for the body on the other.
          rw [Nat.zero_sub]
          cases iterations with
          | zero => exact .halt L .exhausted
          | succ iterations => exact fun m m' hm => .halted (.refl L u) hm .overflow

/-- A loop runs like the desugared statement, if its parts have as much depth left as they have there. -/
theorem runNested (h : l.Nested Γ) (settled : Γ.Settled) (hd : l.body.declared? = none) (ht : t.At .same)
    (depth : Nat) :
    padded.InStep X t True (fun _ v v' => v = v') (l.unnested.runNested iterations depth)
      (Run.execute iterations (depth + 1) l.desugar) := by
  have L := padded.lawful
  have runs := fun d => Lockstep.evaluate_execute (X := X) L iterations d
  have isSome : l.unnested.increment.isSome = l.increment.isSome := Option.isSome_map
  unfold ForLoop.runNested ForLoop.runWith
  rw [isSome]
  cases hi : l.initializer with
  | none =>
      have initializer : l.unnested.initializer = none := hi
      rw [desugar_of_none hi, Run.execute_loop, initializer]
      exact (h.repeated settled hd ht depth).bind L fun _ _ _ _ _ => .pure L rfl
  | some s =>
      have initializer : l.unnested.initializer = some s := hi
      rw [desugar_of_some hi, Run.execute_pair, initializer]
      refine Lockstep.InStep.bind L (Lockstep.InStep.inNewScope L rfl ht fun v hv => ?_) fun _ _ _ _ _ => .pure L rfl
      cases depth with
      | zero => exact fun m m' hm => .halted (.refl L v) hm .overflow
      | succ depth =>
          have start := ((runs (depth + 1)).2 v .same s s .same ⟨rfl, rfl⟩ hv).mayReturn
          rw [Run.execute_loop]
          simp only [bind_assoc, pure_bind, bind_pure_unit]
          exact start.bind L fun w _ _ _ hw => h.repeated settled hd hw.2 depth

end Nested

end ForLoop

end LoxScript
