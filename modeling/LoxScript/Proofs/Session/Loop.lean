import LoxScript.Proofs.Environment.Moment
import LoxScript.Proofs.Loop.Desugar
import LoxScript.Proofs.Session.Append

/-!
# Counting loops in a session

Whenever a session comes to a counting loop, the desugared statement that it runs does what the loop does.
-/

namespace LoxScript

/-- A statement that resolution has visited, with the state in which it was resolved. -/
theorem Resolver.VisitsNode.resolved {program : List (Stmt Unit)} {Γ : Context} {t : Stmt Binding}
    (h : VisitsNode program Γ (.stmt t)) :
    ∃ σ, σ.context = Γ ∧ Visits program σ (.stmt t.forget) ∧ t = (t.forget.resolve σ).1 := by
  cases h with
  | @stmt σ t' hv =>
      rw [Stmt.forget_resolve]
      exact ⟨σ, rfl, hv, rfl⟩

/-- A text that is a single statement. -/
theorem Stmts.Spelled.single {w : List Token} {t : Stmt Unit} (h : Stmts.Spelled w [t]) :
    Stmt.Spelled .declaration w t := by
  obtain ⟨parts, spelled, tokens, statements⟩ := h
  match parts with
  | [] => cases statements
  | [(v, s)] =>
      cases statements
      rw [tokens, List.map_singleton, List.flatten_singleton]
      exact spelled (v, s) List.mem_cons_self
  | _ :: _ :: _ => cases statements

namespace Session

variable {programs : List (List (Stmt Unit))} {s : Session}

/-- A statement that begins with `for` is the desugared statement of the loop that is written there. Whenever an
accepted program that is run in a reached session comes to it, resolution accepts the parts of the loop where they
stand as well, in one new scope if there is an initializer; and executing the statement has the effects of running
these parts as a loop: the runs end for the same reason or with the same value, in machines that no code can tell
apart. The statement may be nested too deeply where the loop is not, by at most three levels. -/
theorem Reached.for_alike (reached : Reached programs s) {source : String} {program : List (Stmt Unit)}
    (accepted : Accepted source program) {t : Stmt Binding} {m : Machine}
    (comes : s.machine.ComesTo s.limits (Stmt.resolveProgram program).value (.stmt t) m) {form : Stmt.Form}
    {w : List Token} (spelled : Stmt.Spelled form w t.forget)
    (isFor : ∀ first ∈ w.head?, first.kind = .keyword .forWord) :
    ∃ l : ForLoop Unit, l.Spelled w ∧ t.forget = l.desugar ∧ ∃ p ∈ program :: programs, ∃ σ,
      Resolver.Visits p σ (.stmt l.desugar) ∧ t = (l.desugar.resolve σ).1 ∧
      Fits m.heap.frames σ.scopes m.chain ∧ (l.resolve σ).2.errors = σ.errors ∧
      ∀ iterations depth,
        (Run.Overflows (Run.execute iterations depth t m) ∨
          m.EndsAlike ((l.resolve σ).1.execute iterations depth m) (Run.execute iterations depth t m)) ∧
        (Run.Overflows ((l.resolve σ).1.execute iterations depth m) ∨
          m.EndsAlike ((l.resolve σ).1.execute iterations depth m) (Run.execute iterations (depth + 3) t m)) := by
  obtain ⟨l, written, same⟩ := ForLoop.exists_of_spelled spelled isFor
  have sound : s.machine.Sound (VisitedIn (program :: programs)) :=
    reached.sound fun p hp => List.mem_cons_of_mem _ hp
  obtain ⟨Γ, u, m₁, ⟨well, settled⟩, at', store⟩ := sound.comes (accepted.wellScoped List.mem_cons_self) comes
  obtain ⟨p, hp, visited⟩ := well.label
  obtain ⟨σ, rfl, visits, resolved⟩ := visited.resolved
  rw [same] at visits resolved
  refine ⟨l, written, same, p, hp, σ, visits, resolved, agreement.fits at' store, ?_⟩
  obtain ⟨l', rfl, rfl⟩ := ForLoop.exists_of_forget same
  have declares : l'.body.declared? = none := (Stmt.declared?_forget _).symm.trans written.declares
  have nested := ForLoop.nested_of_scoped well.unlabelled
  obtain ⟨parts, _, quiet⟩ := (nested.unnested settled declares).resolve_forget σ rfl
  rw [ForLoop.forget_unnested] at parts quiet
  rw [parts]
  exact ⟨quiet, nested.endsAlike well.unlabelled settled declares (agreement.store_second store)
    (agreement.at_second at')⟩

/-! ### A loop that runs a round -/

namespace Round

/-- One round: the body declares a function that captures the variable of the loop and stores it there, and the
increment calls it. -/
def source : String :=
  "for(var a=true;a;a=a())\x7bfun f()\x7bprint a;\x7da=f;\x7d"

/-- The desugared loop, with what the references are tied to: the condition, the function, the body and the
increment are below different numbers of blocks. -/
def desugared {ρ : Type} (condition function own body increment : ρ) : Stmt ρ :=
  .block [.var ⟨"a", 1⟩ (some (.literal (.bool true))),
    .loop (.var ⟨"a", 1⟩ condition) (.block
      [.block [.function (.mk ⟨"f", 1⟩ [] [.print (.var ⟨"a", 1⟩ function)]),
          .expression (.assign ⟨"a", 1⟩ body (.var ⟨"f", 1⟩ own))],
        .expression (.assign ⟨"a", 1⟩ increment (.call (.var ⟨"a", 1⟩ increment) 1 []))])]

def resolved : Stmt Binding :=
  desugared (.scoped 0) (.scoped 3) (.scoped 0) (.scoped 2) (.scoped 1)

theorem accepted : Accepted source [desugared () () () () ()] :=
  ⟨by cbv, by cbv, by cbv⟩

theorem resolveProgram_eq : (Stmt.resolveProgram [desugared () () () () ()]).value = [resolved] := by
  cbv

theorem executes (clock : Nat → Float) : ∃ m, Run.execute 2 9 resolved (Machine.start clock) = .ok .nil m ∧
    m.printed = #["<fn f>"] :=
  ⟨_, by cbv, by cbv⟩

/-- The program comes to its only statement at once. -/
theorem comes (clock : Nat → Float) :
    (Machine.start clock).ComesTo .standard [resolved] (.stmt resolved) (Machine.start clock) :=
  fun stop _ => ⟨_, Run.bind_of_error _ (Run.executeTo_of_hit stop _ _ ⟨rfl, rfl⟩)⟩

theorem isFor : ∀ t ∈ (Scan.ofString source).list.tokens.head?, t.kind = .keyword .forWord := by
  have first : (Scan.ofString source).list.tokens.head? = some ⟨.keyword .forWord, "for", 1⟩ := by cbv
  intro t ht
  rw [first] at ht
  cases ht
  rfl

end Round

/-- A loop of one round, in which a function captures the variable of the loop and is called by the increment: the
desugared statement and the loop both print the function once, in machines that no code can tell apart. -/
theorem for_alike_round :
    Accepted Round.source [Round.desugared () () () () ()] ∧ ∀ clock,
      ∃ l : ForLoop Unit, l.Spelled (Scan.ofString Round.source).list.tokens ∧
        ∃ σ, σ.scopes = [] ∧ (l.resolve σ).2.errors = σ.errors ∧ ∃ m m',
          (l.resolve σ).1.execute 2 9 (Machine.start clock) = .ok .nil m ∧
          Run.execute 2 9 Round.resolved (Machine.start clock) = .ok .nil m' ∧
          m.printed = #["<fn f>"] ∧ (Machine.start clock).Alike m m' := by
  refine ⟨Round.accepted, fun clock => ?_⟩
  have comes : (Machine.start clock).ComesTo .standard (Stmt.resolveProgram [Round.desugared () () () () ()]).value
      (.stmt Round.resolved) (Machine.start clock) := by
    rw [Round.resolveProgram_eq]
    exact Round.comes clock
  obtain ⟨l, written, _, p, _, σ, _, _, fits, quiet, alike⟩ :=
    (Reached.start false .standard clock).for_alike Round.accepted comes Round.accepted.spelled.single Round.isFor
  have scopes : σ.scopes.length = 0 := (Nat.succ.inj fits.length_eq).symm
  obtain ⟨m', ran, printed⟩ := Round.executes clock
  have ends := (alike 2 9).1
  rw [ran] at ends
  cases ends with
  | inl overflows =>
      obtain ⟨_, overflows⟩ := overflows
      cases overflows
  | inr same =>
      generalize loop : (l.resolve σ).1.execute 2 9 (Machine.start clock) = y at same
      cases same with
      | value same =>
          have alsoPrinted := same.printed.trans printed
          exact ⟨l, written, σ, List.eq_nil_of_length_eq_zero scopes, quiet, _, m', loop, ran, alsoPrinted, same⟩

end Session

end LoxScript
