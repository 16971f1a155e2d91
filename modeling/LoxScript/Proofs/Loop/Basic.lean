import LoxScript.Proofs.Grammar.Spelled
import LoxScript.Proofs.Loop.Without
import LoxScript.Proofs.Scope.Complete
import LoxScript.Proofs.Scope.Moved

/-!
# Counting loops

What a counting loop means on its own, without the statements that it is written with: its initializer opens one
scope, in which all of its other parts stand and in which all of its rounds run. Inside the statements that remain,
the body and the increment of the loop have a block around them; apart from the scope of that block they are the
same code.
-/

namespace LoxScript

structure ForLoop (ρ : Type) where
  initializer : Option (Stmt ρ)
  condition : Option (Expr ρ)
  increment : Option (Expr ρ)
  body : Stmt ρ

/-! ## Running a loop -/

namespace Run

def inNewScope {α : Type} (body : Run α) : Run α := do
  let chain := (← get).chain
  let id ← newFrame .empty
  inChain (id :: chain) body

/-- Runs `start` once, in a new scope that the rounds share, and then one round after the other as long as
`condition` holds. -/
def loopFrom (start : Option (Run Unit)) (condition : Run Bool) (round : Run Unit) (iterations : Nat) : Run Unit :=
  match start with
  | none => repeatWhile condition round iterations
  | some start => inNewScope do
      start
      repeatWhile condition round iterations

end Run

namespace ForLoop

variable {ρ : Type}

/-- The loop written with the statements that remain. -/
def desugar (l : ForLoop ρ) : Stmt ρ :=
  Stmt.forLoop l.initializer l.condition l.increment l.body

def innerBody (l : ForLoop ρ) : Stmt ρ :=
  match l.increment with
  | none => l.body
  | some increment => .block [l.body, .expression increment]

/-- An absent condition holds. -/
def test (evaluate : Expr Binding → Run Value) (l : ForLoop Binding) : Run Bool :=
  match l.condition with
  | none => return true
  | some condition => do return (← evaluate condition).isTruthy

def round (execute : Stmt Binding → Run Value) (evaluate : Expr Binding → Run Value) (l : ForLoop Binding) :
    Run Unit := do
  let _ ← execute l.body
  match l.increment with
  | none => return ()
  | some increment => let _ ← evaluate increment

def runWith (iterations : Nat) (start : Stmt Binding → Run Value) (evaluate : Expr Binding → Run Value)
    (execute : Stmt Binding → Run Value) (step : Expr Binding → Run Value) (l : ForLoop Binding) : Run Value := do
  Run.loopFrom (l.initializer.map fun s => do let _ ← start s) (l.test evaluate) (l.round execute step) iterations
  return .nil

/-- Executes a loop with the given depth left, of which the loop itself takes one level. -/
def execute (iterations : Nat) : Nat → ForLoop Binding → Run Value
  | 0, _ => throw .overflow
  | depth + 1, l =>
      l.runWith iterations (Run.execute iterations depth) (Run.evaluate iterations depth) (Run.execute iterations depth)
        (Run.evaluate iterations depth)

/-! ## Resolving a loop -/

def resolveParts (l : ForLoop Unit) : Resolver (ForLoop Binding) := do
  let initializer ← Stmt.resolve? l.initializer
  let condition ← Expr.resolve? l.condition
  let body ← l.body.resolve
  let increment ← Expr.resolve? l.increment
  return ⟨initializer, condition, increment, body⟩

/-- Resolves the parts of a loop where they stand. An initializer opens one scope for all of them. -/
def resolve (l : ForLoop Unit) : Resolver (ForLoop Binding) :=
  match l.initializer with
  | none => l.resolveParts
  | some _ => Resolver.inScope .empty l.resolveParts

def forget (l : ForLoop Binding) : ForLoop Unit :=
  ⟨Stmt.forget? l.initializer, l.condition.map Expr.forget, l.increment.map Expr.forget, l.body.forget⟩

def site (l : ForLoop Binding) (Γ : Context) : Context :=
  match l.initializer with
  | none => Γ
  | some s => (Γ.push .empty).after s

structure Scoped (Γ : Context) (l : ForLoop Binding) : Prop where
  initializer : ∀ s ∈ l.initializer, s.Scoped Unlabelled (Γ.push .empty)
  condition : ∀ e ∈ l.condition, e.Scoped Unlabelled (l.site Γ)
  body : l.body.Scoped Unlabelled (l.site Γ)
  declares : l.body.declared? = none
  increment : ∀ e ∈ l.increment, e.Scoped Unlabelled (l.site Γ)

variable {Γ : Context} {l : ForLoop Binding}

theorem site_settled {P : Context → Node Binding → Prop} (h : ∀ s ∈ l.initializer, s.Scoped P (Γ.push .empty))
    (settled : Γ.Settled) : (l.site Γ).Settled := by
  unfold site
  cases hi : l.initializer with
  | none => exact settled
  | some s => exact agreement.settled_after (h s hi) settled.push

open Resolver in
/-- Resolution finds no error in a well-scoped loop and gives back its notes. -/
theorem Scoped.resolve_forget (h : l.Scoped Γ) : Gives l.forget.resolve Γ l Γ := by
  have executed := Stmt.resolve_forget l.body h.body
  rw [Context.after_of_declared _ h.declares] at executed
  have rest : Gives (do
      let condition ← Expr.resolve? l.forget.condition
      let body ← l.forget.body.resolve
      let increment ← Expr.resolve? l.forget.increment
      return (⟨l.initializer, condition, increment, body⟩ : ForLoop Binding)) (l.site Γ) l (l.site Γ) :=
    (Expr.resolve?_forget h.condition).bind (executed.bind ((Expr.resolve?_forget h.increment).map _))
  obtain ⟨initializer, condition, increment, body⟩ := l
  cases initializer with
  | none => exact (Gives.pure none Γ).bind rest
  | some s =>
      have start := (Stmt.resolve_forget s (h.initializer s rfl)).map some
      have parts : Gives (resolveParts (forget ⟨some s, condition, increment, body⟩)) (Γ.push .empty)
        ⟨some s, condition, increment, body⟩ ((Γ.push .empty).after s) := start.bind rest
      have scope := parts.inScope
      rw [Context.pop_after, Context.pop_push] at scope
      exact scope

/-! ## The loop in the desugared statement -/

theorem desugar_of_none {l : ForLoop ρ} (h : l.initializer = none) :
    l.desugar = .loop (l.condition.getD (.literal (.bool true))) l.innerBody := by
  unfold desugar Stmt.forLoop
  rw [h]
  rfl

theorem desugar_of_some {l : ForLoop ρ} {s : Stmt ρ} (h : l.initializer = some s) :
    l.desugar = .block [s, .loop (l.condition.getD (.literal (.bool true))) l.innerBody] := by
  unfold desugar Stmt.forLoop
  rw [h]
  rfl

/-- The loop whose parts are those of the desugared statement, outside of the block around body and increment. -/
def unnested (l : ForLoop Binding) : ForLoop Binding :=
  { l with
    increment := l.increment.map (Expr.without 0)
    body := match l.increment with
      | none => l.body
      | some _ => l.body.without 0 }

theorem forget_unnested (l : ForLoop Binding) : l.unnested.forget = l.forget := by
  obtain ⟨initializer, condition, increment, body⟩ := l
  cases increment with
  | none => rfl
  | some e => simp only [unnested, forget, Stmt.forget_without, Expr.forget?_without]

structure Nested (Γ : Context) (l : ForLoop Binding) : Prop where
  initializer : ∀ s ∈ l.initializer, s.Scoped Unlabelled (Γ.push .empty)
  condition : ∀ e ∈ l.condition, e.Scoped Unlabelled (l.site Γ)
  innerBody : l.innerBody.Scoped Unlabelled (l.site Γ)

theorem nested_of_scoped (h : l.desugar.Scoped Unlabelled Γ) : l.Nested Γ := by
  have parts {Δ : Context}
      (h : (Stmt.loop (l.condition.getD (.literal (.bool true))) l.innerBody).Scoped Unlabelled Δ) :
      (∀ e ∈ l.condition, e.Scoped Unlabelled Δ) ∧ l.innerBody.Scoped Unlabelled Δ := by
    cases h with
    | loop _ hc _ hb =>
        refine ⟨fun e he => ?_, hb⟩
        rwa [Option.mem_def.1 he] at hc
  cases hi : l.initializer with
  | none =>
      rw [desugar_of_none hi] at h
      have site : l.site Γ = Γ := by
        unfold ForLoop.site
        rw [hi]
      obtain ⟨hc, hb⟩ := parts h
      refine ⟨fun s hs => ?_, site.symm ▸ hc, site.symm ▸ hb⟩
      rw [hi] at hs
      cases hs
  | some s =>
      rw [desugar_of_some hi] at h
      have site : l.site Γ = (Γ.push .empty).after s := by
        unfold ForLoop.site
        rw [hi]
      cases h with
      | block _ h =>
          cases h with
          | cons hs h =>
              cases h with
              | cons h _ =>
                  obtain ⟨hc, hb⟩ := parts h
                  refine ⟨fun u hu => ?_, site.symm ▸ hc, site.symm ▸ hb⟩
                  rw [hi] at hu
                  cases hu
                  exact hs

/-- Inside the block around body and increment. -/
theorem Nested.inBlock (h : l.Nested Γ) {e : Expr Binding} (he : l.increment = some e) (hd : l.body.declared? = none) :
    l.body.Scoped Unlabelled ((l.site Γ).push .empty) ∧ e.Scoped Unlabelled ((l.site Γ).push .empty) := by
  have inner := h.innerBody
  unfold ForLoop.innerBody at inner
  rw [he] at inner
  cases inner with
  | block _ h =>
      cases h with
      | cons hb h =>
          rw [Context.after_of_declared _ hd] at h
          cases h with
          | cons h _ =>
              cases h with
              | expression _ h => exact ⟨hb, h⟩

/-- Without the block the parts of the loop stay well scoped. -/
theorem Nested.unnested (h : l.Nested Γ) (settled : Γ.Settled) (hd : l.body.declared? = none) :
    l.unnested.Scoped Γ := by
  cases he : l.increment with
  | none =>
      have inner := h.innerBody
      unfold ForLoop.innerBody at inner
      rw [he] at inner
      unfold ForLoop.unnested
      rw [he]
      exact ⟨h.initializer, h.condition, inner, hd, nofun⟩
  | some e =>
      obtain ⟨hb, hn⟩ := h.inBlock he hd
      have blank : ((l.site Γ).push .empty).Blank 0 := rfl
      have inside := (site_settled h.initializer settled).push
      unfold ForLoop.unnested
      rw [he]
      refine ⟨h.initializer, h.condition, Stmt.Scoped.without l.body hb blank inside fun _ => hd,
        (l.body.declared?_without 0).trans hd, fun u hu => ?_⟩
      cases hu
      exact Expr.Scoped.without e hn blank inside.ready

/-! ## Desugared statements without notes -/

end ForLoop

namespace Stmt

theorem eq_expression_of_forget {t : Stmt Binding} {e : Expr Unit} (h : t.forget = .expression e) :
    ∃ e', t = .expression e' ∧ e'.forget = e := by
  cases t with
  | expression e' => exact ⟨e', rfl, Stmt.expression.inj h⟩
  | print _ | var _ _ | block _ | function _ | classDecl _ _ _ | ite _ _ _ | ret _ _ | loop _ _ => cases h

theorem eq_loop_of_forget {t : Stmt Binding} {c : Expr Unit} {b : Stmt Unit} (h : t.forget = .loop c b) :
    ∃ c' b', t = .loop c' b' ∧ c'.forget = c ∧ b'.forget = b := by
  cases t with
  | loop c' b' => exact ⟨c', b', rfl, (Stmt.loop.inj h).1, (Stmt.loop.inj h).2⟩
  | expression _ | print _ | var _ _ | block _ | function _ | classDecl _ _ _ | ite _ _ _ | ret _ _ => cases h

theorem eq_pair_of_forget {t : Stmt Binding} {a b : Stmt Unit} (h : t.forget = .block [a, b]) :
    ∃ a' b', t = .block [a', b'] ∧ a'.forget = a ∧ b'.forget = b := by
  cases t with
  | block ss =>
      have parts : Stmt.forgetAll ss = [a, b] := Stmt.block.inj h
      match ss with
      | [] => cases parts
      | [_] => cases parts
      | [a', b'] =>
          obtain ⟨ha, hb⟩ := List.cons.inj parts
          exact ⟨a', b', rfl, ha, (List.cons.inj hb).1⟩
      | _ :: _ :: _ :: _ => cases (List.cons.inj (List.cons.inj parts).2).2
  | expression _ | print _ | var _ _ | function _ | classDecl _ _ _ | ite _ _ _ | ret _ _ | loop _ _ => cases h

theorem declared?_forget (t : Stmt Binding) : t.forget.declared? = t.declared? := by
  cases t with
  | function d => cases d; rfl
  | expression _ | print _ | var _ _ | block _ | classDecl _ _ _ | ite _ _ _ | ret _ _ | loop _ _ => rfl

end Stmt

theorem Expr.eq_literal_of_forget {e : Expr Binding} {v : Literal} (h : e.forget = .literal v) : e = .literal v := by
  cases e with
  | literal v' => exact congrArg Expr.literal (Expr.literal.inj h)
  | grouping _ | unary _ _ _ | binary _ _ _ _ | logical _ _ _ _ | var _ _ | assign _ _ _ | call _ _ _ | get _ _
  | set _ _ _ | this _ _ | super _ _ _ => cases h

namespace ForLoop

/-- A resolved statement whose tree is that of a loop is itself that of a loop. -/
theorem exists_of_forget {t : Stmt Binding} {l : ForLoop Unit} (h : t.forget = l.desugar) :
    ∃ l' : ForLoop Binding, t = l'.desugar ∧ l'.forget = l := by
  have inner {b : Stmt Binding} (h : b.forget = l.innerBody) :
      ∃ (increment : Option (Expr Binding)) (body : Stmt Binding),
        increment.map Expr.forget = l.increment ∧ body.forget = l.body ∧
          ∀ initializer condition, (⟨initializer, condition, increment, body⟩ : ForLoop Binding).innerBody = b := by
    unfold innerBody at h
    cases hn : l.increment with
    | none =>
        rw [hn] at h
        exact ⟨none, b, rfl, h, fun _ _ => rfl⟩
    | some e =>
        rw [hn] at h
        obtain ⟨body, s, rfl, hb, hs⟩ := Stmt.eq_pair_of_forget h
        obtain ⟨e', rfl, he⟩ := Stmt.eq_expression_of_forget hs
        exact ⟨some e', body, congrArg some he, hb, fun _ _ => rfl⟩
  have condition {c : Expr Binding} (h : c.forget = l.condition.getD (.literal (.bool true))) :
      ∃ c' : Option (Expr Binding), c'.map Expr.forget = l.condition ∧ c'.getD (.literal (.bool true)) = c := by
    cases hc : l.condition with
    | none =>
        rw [hc] at h
        exact ⟨none, rfl, (Expr.eq_literal_of_forget h).symm⟩
    | some e =>
        rw [hc] at h
        exact ⟨some c, congrArg some h, rfl⟩
  obtain ⟨initializer, c, n, b⟩ := l
  cases initializer with
  | none =>
      rw [desugar_of_none rfl] at h
      obtain ⟨c', b', rfl, hc, hb⟩ := Stmt.eq_loop_of_forget h
      obtain ⟨increment, body, hn, hbody, whole⟩ := inner hb
      obtain ⟨test, ht, rfl⟩ := condition hc
      refine ⟨⟨none, test, increment, body⟩, ?_, ?_⟩
      · rw [desugar_of_none rfl, whole none test]
      · unfold forget
        simp only [hn, hbody, ht]
        rfl
  | some s =>
      rw [desugar_of_some rfl] at h
      obtain ⟨s', r', rfl, hs, hr⟩ := Stmt.eq_pair_of_forget h
      obtain ⟨c', b', rfl, hc, hb⟩ := Stmt.eq_loop_of_forget hr
      obtain ⟨increment, body, hn, hbody, whole⟩ := inner hb
      obtain ⟨test, ht, rfl⟩ := condition hc
      refine ⟨⟨some s', test, increment, body⟩, ?_, ?_⟩
      · rw [desugar_of_some rfl, whole (some s') test]
      · unfold forget
        simp only [hn, hbody, ht]
        exact congrArg (ForLoop.mk · c n b) (congrArg some hs)

theorem declared?_desugar {ρ : Type} (l : ForLoop ρ) : l.desugar.declared? = none := by
  cases h : l.initializer with
  | none =>
      rw [desugar_of_none h]
      rfl
  | some s =>
      rw [desugar_of_some h]
      rfl

end ForLoop

/-- Statements declare nothing where they stand. -/
theorem Stmt.Spelled.declared?_statement {dangling : Bool} {w : List Token} {s : Stmt Unit}
    (h : Stmt.Spelled (.statement dangling) w s) : s.declared? = none := by
  cases h with
  | expression | print | ret | block | loop | ite | iteElse => rfl
  | @forLoop _ _ _ i _ c _ _ n _ _ b _ => exact ForLoop.declared?_desugar ⟨i, c, n, b⟩

inductive ForLoop.Spelled : List Token → ForLoop Unit → Prop where
  | mk {t l w₁ i w₂ c q w₃ n r v s dangling} : t.kind = .keyword .forWord → l.kind = .symbol .leftParen →
      InitializerSpelled w₁ i → Optionally (Expr.Spelled .assignment) w₂ c → q.kind = .symbol .semicolon →
      Optionally (Expr.Spelled .assignment) w₃ n → r.kind = .symbol .rightParen →
      Stmt.Spelled (.statement dangling) v s →
      Spelled (t :: l :: (w₁ ++ (w₂ ++ q :: (w₃ ++ r :: v)))) ⟨i, c, n, s⟩

theorem ForLoop.Spelled.declares {w : List Token} {l : ForLoop Unit} (h : l.Spelled w) : l.body.declared? = none := by
  cases h with
  | mk _ _ _ _ _ _ _ hb => exact hb.declared?_statement

/-- A text that begins with `for` is read as the desugared statement of the loop that is written there. -/
theorem ForLoop.exists_of_spelled {form : Stmt.Form} {w : List Token} {s : Stmt Unit} (h : Stmt.Spelled form w s)
    (isFor : ∀ t ∈ w.head?, t.kind = .keyword .forWord) : ∃ l : ForLoop Unit, l.Spelled w ∧ s = l.desugar := by
  induction h with
  | forLoop ht hl hi hc hq hn hr hb _ => exact ⟨_, .mk ht hl hi hc hq hn hr hb, rfl⟩
  | statement _ ih => exact ih isFor
  | expression he _ =>
      obtain ⟨t, ts, rfl, starts⟩ := he.starts
      rw [isFor t rfl] at starts
      cases starts
  | print ht _ _ | ret ht _ _ | block ht _ _ _ | loop ht _ _ _ _ _ | ite ht _ _ _ _ _ | iteElse ht _ _ _ _ _ _ _ _
  | var ht _ | function ht _ _ _ | classDecl ht _ _ _ _ _ _ _ =>
      rw [isFor _ rfl] at ht
      cases ht

end LoxScript
