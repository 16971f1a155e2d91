import LoxScript.Proofs.Grammar.Finds

/-!
# Parsers read what is spelled

A tree that a parser gives without noticing an error is spelled by the tokens that the parser has read.
-/

namespace LoxScript

theorem UnaryOp.kind_of_ofKind? {k : Token.Kind} {op : UnaryOp} (h : ofKind? k = some op) :
    k = .symbol op.symbol := by
  unfold ofKind? at h
  split at h <;> cases h <;> rfl

namespace Parser

/-! ## Expressions -/

def Spells (n : Nat) (r : Rank) (p : Parser (Expr Unit)) : Prop :=
  Finds n (fun _ => 1) p fun w _ e => e.Spelled r w

section Expressions

variable {n fuel : Nat} {p q : Parser (Expr Unit)}

theorem Spells.fewer {m : Nat} {r : Rank} (h : Spells n r p) (hm : m ≤ n) : Spells m r p :=
  Finds.fewer h hm

theorem operand_spells (h : 1 ≤ n → Spells (n - 1) .assignment p) : Spells n .operand (operand p) := by
  refine Finds.front .reject fun t ts pos => ?_
  dsimp only
  split
  · next hk => exact FindsAt.next (.pure (by simp) fun _ => .literal hk)
  · next hk => exact FindsAt.next (.pure (by simp) fun _ => .literal hk)
  · next hk => exact FindsAt.next (.pure (by simp) fun _ => .literal hk)
  · next hk => exact FindsAt.next (.pure (by simp) fun _ => .literal hk)
  · next hk => exact FindsAt.next (.pure (by simp) fun _ => .literal hk)
  · next hk =>
      refine FindsAt.next ((Finds.symbolAfter _ _).andThen fun d _ => (Finds.name _).andThen fun x _ => ?_)
      refine .pure (by simp) fun r u hu v hv => ?_
      obtain ⟨n, rfl, hn⟩ := hu
      obtain ⟨rfl, hd⟩ := hv
      exact .super hk hd hn
  · next hk => exact FindsAt.next (.pure (by simp) fun _ => .this hk)
  · next text hk =>
      exact FindsAt.next (.pure (by simp) fun _ => .var (Token.name?_of_kind hk))
  · next hk =>
      refine FindsAt.next ((h pos).andThen fun e _ => (Finds.symbolAfter _ _).andThen fun c _ => ?_)
      refine .pure (by simp) fun r u hu v hv => ?_
      obtain ⟨rfl, hc⟩ := hu
      simpa using Expr.Spelled.grouping hk hv hc
  · exact FindsAt.of .reject

theorem arguments_spells (h : Spells n .assignment p) (hn : n < fuel) :
    Finds n (fun _ => 0) (arguments fuel p) fun w _ es => ∃ parts : List (List Token × Expr Unit),
      (∀ a ∈ parts, a.2.Spelled .assignment a.1) ∧ Commas (parts.map Prod.fst) w ∧ es = parts.map Prod.snd ∧
        parts.length ≤ maxArguments := by
  refine (Finds.atSymbol _).andThen fun b _ => ?_
  cases b with
  | true =>
      refine .pure (by simp) fun r u hu => ⟨[], by simp, ?_, by simp, by simp⟩
      obtain ⟨rfl, _⟩ := hu
      exact .nil
  | false =>
      refine (Finds.commaSeparated h _ hn).mono (by simp) fun w r es => ?_
      rintro ⟨parts, _, hI, commas, rfl, few⟩ u ⟨rfl, _⟩
      exact ⟨parts, hI, commas, rfl, few⟩

theorem callChain_spells (h : 1 ≤ n → Spells (n - 1) .assignment p) (hn : n ≤ fuel) :
    Spells n .call (callChain fuel p) := by
  let R (e : Expr Unit) (w _ : List Token) (e' : Expr Unit) : Prop :=
    ∀ u, e.Spelled .call u → e'.Spelled .call (u ++ w)
  refine (operand_spells h).andThen fun e pos => ?_
  refine (Finds.repeating (R := R) (fun e => ?_) (by omega) e).mono (by simp) ?_
  · refine (Finds.symbol? _).andThen fun o ho => ?_
    cases o with
    | some l =>
        have two : 1 ≤ n - 1 := ho
        have inner : Spells (n - 1 - 1) .assignment p := (h pos).fewer (Nat.sub_le _ _)
        refine (arguments_spells inner (by omega)).andThen fun es _ => ?_
        refine (Finds.symbolAfter _ _).andThen fun c _ => ?_
        refine .pure (by simp) fun r u hu v hv w hw w' r' b hb hR x hx => ?_
        obtain ⟨rfl, hc⟩ := hu
        obtain ⟨parts, hI, commas, rfl, few⟩ := hv
        obtain ⟨ho, _⟩ | ⟨l', ho, rfl, hl⟩ := hw
        · cases ho
        · have called := hR _ (.call hx hl hI commas few hc)
          simpa using called
    | none =>
        refine (Finds.symbol? _).andThen fun o _ => ?_
        cases o with
        | some d =>
            refine (Finds.name _).andThen fun x _ => ?_
            refine .pure (by simp) fun r u hu v hv w hw w' r' b hb hR x hx => ?_
            obtain ⟨n, rfl, hn⟩ := hu
            obtain ⟨_, rfl, _⟩ | ⟨_, ho, _⟩ := hw
            · obtain ⟨ho, _⟩ | ⟨d', ho, rfl, hd⟩ := hv
              · cases ho
              · have got := hR _ (.get hx hd hn)
                simpa using got
            · cases ho
        | none =>
            refine .pure (by simp) fun r u hu v hv w hw => ?_
            obtain ⟨_, rfl, _⟩ | ⟨_, ho, _⟩ := hu
            · obtain ⟨_, rfl, _⟩ | ⟨_, ho, _⟩ := hv
              · simpa using hw
              · cases ho
            · cases ho
  · intro w r e' hR u hu
    exact hR u (.tighter (r := .call) hu)

theorem signed_spells (hp : 1 ≤ n → Spells (n - 1) .unary p) (hq : Spells n .call q) :
    Spells n .unary (signed p q) := by
  refine (Finds.accept? _).andThen fun o ho => ?_
  cases o with
  | none =>
      refine hq.mono (by simp) fun w r e he u hu => ?_
      obtain ⟨_, rfl, _⟩ | ⟨_, _, ho, _⟩ := hu
      · exact .tighter (r := .unary) he
      · cases ho
  | some sign =>
      have pos : 1 ≤ n := ho
      refine (hp pos).andThen fun e _ => .pure (by simp) fun r u hu v hv => ?_
      obtain ⟨ho, _⟩ | ⟨t, sign', ho, rfl, hs⟩ := hv
      · cases ho
      · cases ho
        obtain ⟨op, hop, rfl⟩ := Option.map_eq_some_iff.1 hs
        simpa using Expr.Spelled.unary (UnaryOp.kind_of_ofKind? hop) hu

theorem joined_spells {level : Level} (h : Spells n (Rank.joined level).tighter p) (hn : n ≤ fuel) :
    Spells n (.joined level) (joined fuel level p) := by
  let R (e : Expr Unit) (w _ : List Token) (e' : Expr Unit) : Prop :=
    ∀ u, e.Spelled (.joined level) u → e'.Spelled (.joined level) (u ++ w)
  refine Finds.andThen h fun e pos => ?_
  refine (Finds.repeating (R := R) (fun e => ?_) (by omega) e).mono (by simp) ?_
  · refine (Finds.accept? _).andThen fun o _ => ?_
    cases o with
    | none =>
        refine .pure (by simp) fun r u hu w hw => ?_
        obtain ⟨_, rfl, _⟩ | ⟨_, _, ho, _⟩ := hu
        · simpa using hw
        · cases ho
    | some operator =>
        refine (h.fewer (by omega)).andThen fun b _ => ?_
        refine .pure (by simp) fun r v hv w hw w' r' e' _ hR u hu => ?_
        obtain ⟨ho, _⟩ | ⟨t, operator', ho, rfl, ht⟩ := hw
        · cases ho
        · cases ho
          split at ht
          · next j hj =>
              split at ht
              · next same =>
                  subst same
                  cases ht
                  have joined := hR _ (.join hu (Join.kind_of_ofKind? hj).symm hv)
                  simpa using joined
              · cases ht
          · cases ht
  · intro w r e' hR u hu
    exact hR u hu.tighter

/-- What can be assigned to is a variable or a property. -/
theorem assignTo?_spelled {u w : List Token} {t : Token} {a v e : Expr Unit} {r : Rank}
    (ha : a.Spelled r u) (ht : t.kind = .symbol .equal) (hv : v.Spelled .assignment w)
    (h : assignTo? a v = some e) : e.Spelled .assignment (u ++ t :: w) := by
  unfold assignTo? at h
  split at h
  · cases h
    obtain ⟨n, rfl, hn⟩ := ha.of_var
    exact .assign hn ht hv
  · cases h
    obtain ⟨u, d, n, rfl, ho, hd, hn⟩ := ha.of_get
    simpa using Expr.Spelled.set ho hd hn ht hv
  · cases h

theorem assignment_spells (hp : 1 ≤ n → Spells (n - 1) .assignment p)
    (hq : Spells n (.joined .disjunction) q) : Spells n .assignment (assignment p q) := by
  refine Finds.andThen hq fun a pos => (Finds.symbol? _).andThen fun o _ => ?_
  cases o with
  | none =>
      refine .pure (by simp) fun r u hu w hw => ?_
      obtain ⟨_, rfl, _⟩ | ⟨_, ho, _⟩ := hu
      · simpa using Expr.Spelled.tighter (r := .assignment) hw
      · cases ho
  | some equals =>
      refine ((hp pos).fewer (Nat.sub_le _ _)).andThen fun v _ => ?_
      cases h : assignTo? a v with
      | none => exact (Finds.reportAt _ _).andThen fun _ _ => .pure (by simp) fun r u hu => hu.elim
      | some e =>
          refine .pure (by simp) fun r w hw w' hw' u hu => ?_
          obtain ⟨ho, _⟩ | ⟨t, ho, rfl, ht⟩ := hw'
          · cases ho
          · simpa using assignTo?_spelled hu ht hw h

theorem expression_unary_spells (fuel : Nat) :
    (∀ n, 2 * n + 3 ≤ fuel → Spells n .assignment (expression fuel)) ∧
      ∀ n, 2 * n + 2 ≤ fuel → Spells n .unary (unary fuel) := by
  induction fuel with
  | zero => exact ⟨fun n hn => by omega, fun n hn => by omega⟩
  | succ fuel ih =>
      refine ⟨fun n hn => ?_, fun n hn => ?_⟩
      · have unaries := ih.2 n (by omega)
        have levels : Spells n (.joined .disjunction) (joinedAll fuel (unary fuel) Level.all) := by
          iterate 6 apply joined_spells _ (by omega)
          exact unaries
        exact assignment_spells (fun pos => ih.1 (n - 1) (by omega)) levels
      · have calls : Spells n .call (callChain fuel (expression fuel)) :=
          callChain_spells (fun pos => ih.1 (n - 1) (by omega)) (by omega)
        exact signed_spells (fun pos => ih.2 (n - 1) (by omega)) calls

theorem expression_spells (hn : 2 * n + 3 ≤ fuel) : Spells n .assignment (expression fuel) :=
  (expression_unary_spells fuel).1 n hn

theorem wholeExpression_spells (hn : 2 * n + 3 ≤ fuel) :
    Finds n (fun _ => 0) (wholeExpression fuel) fun w r e => r = [] ∧ e.Spelled .assignment w := by
  refine Finds.andThen (expression_spells hn) fun e _ => Finds.atEnd.andThen fun b _ => ?_
  cases b with
  | true =>
      refine .pure (by simp) fun r u hu w hw => ?_
      obtain ⟨rfl, hend⟩ := hu
      exact ⟨hend.1 rfl, by simpa using hw⟩
  | false => exact .reject

end Expressions

end Parser

/-- An expression that is read without an error is spelled by the whole text. -/
theorem Expr.spelled_of_parse? {ts : TokenList} {e : Expr Unit} (h : Expr.parse? ts = ⟨some e, []⟩) :
    e.Spelled .assignment ts.tokens := by
  have enough : 2 * ts.tokens.length + 3 ≤ ts.fuel := by
    unfold TokenList.fuel
    omega
  have found := (Parser.wholeExpression_spells enough).map (f := some)
  obtain ⟨w, r, hw, e', he, rfl, spelled⟩ := found.run (Nat.le_refl _) (congrArg Parsed.errors h)
  have value := congrArg Parsed.value h
  unfold Expr.parse? at value
  rw [he] at value
  cases value
  rwa [hw, List.append_nil]

/-! ## Statements -/

namespace Parser

section Statements

variable {n fuel : Nat} {p : Parser (Stmt Unit)} {d : Parser (Stmt Unit)} {b : Parser (List (Stmt Unit))}

/-- The parser reads statements. One that is dangling is not followed by an `else`. -/
def SpellsStatement (n : Nat) (p : Parser (Stmt Unit)) : Prop :=
  Finds n (fun _ => 1) p fun w r s => ∃ dangling, s.Spelled (.statement dangling) w ∧ (dangling = true → NoElse r)

def SpellsBlock (n : Nat) (b : Parser (List (Stmt Unit))) : Prop :=
  Finds n (fun _ => 0) b fun w _ ss => ∃ (parts : List (List Token × Stmt Unit)) (c : Token),
    (∀ x ∈ parts, x.2.Spelled .declaration x.1) ∧ c.kind = .symbol .rightBrace ∧
      w = (parts.map Prod.fst).flatten ++ [c] ∧ ss = parts.map Prod.snd

theorem expressionStatement_spells (hn : 2 * n + 3 ≤ fuel) :
    Finds n (fun _ => 1) (expressionStatement fuel) fun w _ s =>
      s.Spelled (.statement false) w ∧ InitializerSpelled w (some s) := by
  refine Finds.andThen (expression_spells hn) fun e _ => (Finds.symbolAfter _ _).andThen fun q _ => ?_
  refine .pure (by simp) fun r u hu v hv => ?_
  obtain ⟨rfl, hq⟩ := hu
  simpa using And.intro (Stmt.Spelled.expression hv hq) (InitializerSpelled.expression hv hq)

theorem printStatement_spells (hn : 2 * n + 3 ≤ fuel) {t : Token} (ht : t.kind = .keyword .printWord) :
    Finds n (fun _ => 0) (printStatement fuel) fun w _ s => s.Spelled (.statement false) (t :: w) := by
  refine Finds.andThen (expression_spells hn) fun e _ => (Finds.symbolAfter _ _).andThen fun q _ => ?_
  refine .pure (by simp) fun r u hu v hv => ?_
  obtain ⟨rfl, hq⟩ := hu
  simpa using Stmt.Spelled.print ht hv hq

theorem varDeclaration_spells (hn : 2 * n + 3 ≤ fuel) :
    Finds n (fun _ => 0) (varDeclaration fuel) fun w _ s => VarSpelled w s := by
  refine (Finds.name _).andThen fun x _ => (Finds.symbol? _).andThen fun o _ => ?_
  cases o with
  | none =>
      refine (Finds.symbolAfter _ _).andThen fun q _ => .pure (by simp) fun r u hu v hv w hw => ?_
      obtain ⟨rfl, hq⟩ := hu
      obtain ⟨t, rfl, ht⟩ := hw
      obtain ⟨_, rfl, _⟩ | ⟨_, ho, _⟩ := hv
      · exact .plain ht hq
      · cases ho
  | some equals =>
      have enough : 2 * (n - 1 - 1) + 3 ≤ fuel := by omega
      refine ((expression_spells enough).map (f := some)).andThen fun o _ => ?_
      refine (Finds.symbolAfter _ _).andThen fun q _ => ?_
      refine .pure (by simp) fun r u hu v hv w hw w' hw' => ?_
      obtain ⟨rfl, hq⟩ := hu
      obtain ⟨e, rfl, he⟩ := hv
      obtain ⟨t, rfl, ht⟩ := hw'
      obtain ⟨ho, _⟩ | ⟨q', ho, rfl, hq'⟩ := hw
      · cases ho
      · simpa using VarSpelled.initialized ht hq' he hq

theorem expressionUnless_spells (hn : 2 * n + 3 ≤ fuel) (s : Symbol) :
    Finds n (fun _ => 0) (expressionUnless fuel s) fun w _ o =>
      Optionally (fun w e => e.Spelled .assignment w) w o := by
  refine (Finds.atSymbol _).andThen fun c _ => ?_
  cases c with
  | true =>
      refine .pure (by simp) fun r u hu => ?_
      obtain ⟨rfl, _⟩ := hu
      exact .absent
  | false =>
      refine ((expression_spells hn).map (f := some)).mono (by simp) fun w r o ho u hu => ?_
      obtain ⟨e, rfl, he⟩ := ho
      obtain ⟨rfl, _⟩ := hu
      exact .present he

theorem returnStatement_spells (hn : 2 * n + 3 ≤ fuel) {t : Token} (ht : t.kind = .keyword .returnWord) :
    Finds n (fun _ => 0) (returnStatement fuel t.line) fun w _ s => s.Spelled (.statement false) (t :: w) := by
  refine (expressionUnless_spells hn _).andThen fun o _ => (Finds.symbolAfter _ _).andThen fun q _ => ?_
  refine .pure (by simp) fun r u hu v hv => ?_
  obtain ⟨rfl, hq⟩ := hu
  simpa using Stmt.Spelled.ret ht hv hq

/-- The condition of a statement, between parentheses. -/
theorem condition_spells {β : Type} {k : β → Nat} {f : Expr Unit → Parser β} {Q : List Token → List Token → β → Prop}
    {before after : Clause} (hn : 2 * n + 3 ≤ fuel)
    (h : ∀ c, 3 ≤ n → Finds (n - 3) (fun b => k b - 3) (f c) fun v r b => ∀ l w q, l.kind = .symbol .leftParen →
      c.Spelled .assignment w → q.kind = .symbol .rightParen → Q (l :: (w ++ q :: v)) r b) :
    Finds n k (do
      let _ ← symbolAfter .leftParen before
      let c ← expression fuel
      let _ ← symbolAfter .rightParen after
      f c) Q := by
  have enough : 2 * (n - 1) + 3 ≤ fuel := by omega
  refine (Finds.symbolAfter _ _).andThen fun l _ => Finds.andThen (expression_spells enough) fun c _ => ?_
  refine (Finds.symbolAfter _ _).andThen fun q hq => ?_
  refine (((h c (by omega)).fewer (by omega)).mono (fun b => by omega)) fun v r b hb u hu w hw x hx => ?_
  obtain ⟨rfl, hr⟩ := hu
  obtain ⟨rfl, hl⟩ := hx
  simpa using hb l w q hl hw hr

theorem whileStatement_spells (hn : 2 * n + 3 ≤ fuel) (h : SpellsStatement n p) {t : Token}
    (ht : t.kind = .keyword .whileWord) : Finds n (fun _ => 0) (whileStatement fuel p) fun w r s =>
      ∃ dangling, s.Spelled (.statement dangling) (t :: w) ∧ (dangling = true → NoElse r) := by
  refine condition_spells hn fun c _ => (Finds.fewer h (Nat.sub_le n 3)).andThen fun s _ => ?_
  refine .pure (by simp) fun r v hv l w q hl hw hq => ?_
  obtain ⟨dangling, hs, hr⟩ := hv
  exact ⟨dangling, by simpa using Stmt.Spelled.loop ht hl hw hq hs, by simpa using hr⟩

theorem ifStatement_spells (hn : 2 * n + 3 ≤ fuel) (h : SpellsStatement n p) {t : Token}
    (ht : t.kind = .keyword .ifWord) : Finds n (fun _ => 0) (ifStatement fuel p) fun w r s =>
      ∃ dangling, s.Spelled (.statement dangling) (t :: w) ∧ (dangling = true → NoElse r) := by
  refine condition_spells hn fun c _ => (Finds.fewer h (Nat.sub_le n 3)).andThen fun s _ => ?_
  refine (Finds.keyword? _).andThen fun o _ => ?_
  cases o with
  | none =>
      refine .pure (by simp) fun r u hu v hv l w q hl hw hq => ?_
      obtain ⟨dangling, hs, _⟩ := hv
      obtain ⟨_, rfl, hr⟩ | ⟨_, ho, _⟩ := hu
      · exact ⟨true, by simpa using Stmt.Spelled.ite ht hl hw hq hs, fun _ => hr⟩
      · cases ho
  | some _ =>
      refine (Finds.fewer h (by omega)).andThen fun s' _ => ?_
      refine .pure (by simp) fun r u hu v hv w hw l x q hl hx hq => ?_
      obtain ⟨dangling', hs', hr'⟩ := hu
      obtain ⟨dangling, hs, hr⟩ := hw
      obtain ⟨ho, _⟩ | ⟨e, _, rfl, he⟩ := hv
      · cases ho
      · cases dangling with
        | true => exact absurd he (hr rfl e (by simp))
        | false =>
            have whole := Stmt.Spelled.iteElse ht hl hx hq hs he hs'
            exact ⟨dangling', by simpa using whole, by simpa using hr'⟩

theorem forInitializer_spells (hn : 2 * n + 3 ≤ fuel) :
    Finds n (fun _ => 0) (forInitializer fuel) fun w _ i => InitializerSpelled w i := by
  refine (Finds.symbol? _).andThen fun o _ => ?_
  cases o with
  | some q =>
      refine .pure (by simp) fun r u hu => ?_
      obtain ⟨ho, _⟩ | ⟨q', _, rfl, hq⟩ := hu
      · cases ho
      · exact .absent hq
  | none =>
      refine (Finds.keyword? _).andThen fun o _ => ?_
      cases o with
      | some _ =>
          have enough : 2 * (n - 0 - 1) + 3 ≤ fuel := by omega
          refine ((varDeclaration_spells enough).map (f := some)).mono (by simp) fun w r i hi u hu v hv => ?_
          obtain ⟨s, rfl, hs⟩ := hi
          obtain ⟨_, rfl, _⟩ | ⟨_, ho, _⟩ := hv
          · obtain ⟨ho, _⟩ | ⟨t, _, rfl, ht⟩ := hu
            · cases ho
            · exact .var ht hs
          · cases ho
      | none =>
          have enough : 2 * (n - 0 - 0) + 3 ≤ fuel := by omega
          refine ((expressionStatement_spells enough).map (f := some)).mono (by simp) fun w r i hi u hu v hv => ?_
          obtain ⟨s, rfl, _, hs⟩ := hi
          obtain ⟨_, rfl, _⟩ | ⟨_, ho, _⟩ := hv
          · obtain ⟨_, rfl, _⟩ | ⟨_, ho, _⟩ := hu
            · exact hs
            · cases ho
          · cases ho

theorem forStatement_spells (hn : 2 * n + 3 ≤ fuel) (h : SpellsStatement n p) {t : Token}
    (ht : t.kind = .keyword .forWord) : Finds n (fun _ => 0) (forStatement fuel p) fun w r s =>
      ∃ dangling, s.Spelled (.statement dangling) (t :: w) ∧ (dangling = true → NoElse r) := by
  refine (Finds.symbolAfter _ _).andThen fun l _ => ?_
  refine (forInitializer_spells (by omega)).andThen fun i _ => ?_
  refine (expressionUnless_spells (by omega) _).andThen fun c _ => (Finds.symbolAfter _ _).andThen fun q _ => ?_
  refine (expressionUnless_spells (by omega) _).andThen fun e _ => (Finds.symbolAfter _ _).andThen fun r _ => ?_
  refine (Finds.fewer h (by omega)).andThen fun s _ => .pure (by simp) ?_
  intro rest w hw u hu w₃ he u' hu' w₂ hc w₁ hi u'' hu''
  obtain ⟨dangling, hs, hrest⟩ := hw
  obtain ⟨rfl, hr⟩ := hu
  obtain ⟨rfl, hq⟩ := hu'
  obtain ⟨rfl, hl⟩ := hu''
  exact ⟨dangling, by simpa using Stmt.Spelled.forLoop ht hl hi hc hq he hr hs, by simpa using hrest⟩

/-- A declaration that is read is put behind those before it. -/
theorem declarations_spells (hn : n < fuel) (stop : Bool)
    (h : 1 ≤ n → Finds n (fun _ => 1) d fun w _ s => s.Spelled .declaration w) :
    Finds n (fun _ => 0) (declarations fuel stop (recovering d)) fun w r ss =>
      Stmts.Spelled w ss ∧ (stop = false → r = []) := by
  unfold declarations
  let R (done : Array (Stmt Unit)) (w r : List Token) (ss : List (Stmt Unit)) : Prop :=
    ∃ ss', Stmts.Spelled w ss' ∧ ss = done.toList ++ ss' ∧ (stop = false → r = [])
  refine (Finds.repeating (R := R) (fun done => ?_) hn #[]).mono (by simp) ?_
  · have ended : ∀ r, (stop = false → r = []) → R done [] r done.toList :=
      fun r hr => ⟨[], ⟨[], by simp, rfl, rfl⟩, by simp, hr⟩
    rintro ⟨rest, endLine, errors⟩ hs
    cases rest with
    | nil => exact .quiet (w := []) rfl (by simp) rfl (ended [] fun _ => rfl)
    | cons t ts =>
        have pos : 1 ≤ n := by
          rw [List.length_cons] at hs
          omega
        have round : ∀ k : Option (Stmt Unit) → Parser (Array (Stmt Unit) ⊕ List (Stmt Unit)),
            (∀ s, k (some s) = pure (.inl (done.push s))) → k none = pure (.inl done) →
            FindsAt t ts n (Sum.elim (fun _ => 1) fun _ => 0) (recovering d >>= k) fun w _ x =>
              ∃ s, x = .inl (done.push s) ∧ s.Spelled .declaration w := by
          intro k taken skipped
          refine (Finds.recovering (h pos)).andThen fun o _ => ?_
          cases o with
          | none =>
              rw [skipped]
              refine .pure (by simp) fun r u hu => ?_
              obtain ⟨_, ho, _⟩ := hu
              cases ho
          | some s =>
              rw [taken]
              refine .pure (by simp) fun r u hu => ⟨s, rfl, ?_⟩
              obtain ⟨s', ho, hs⟩ := hu
              cases ho
              simpa using hs
        show Found _ _ _ ((if (false || (stop && (some t.kind == some (.symbol .rightBrace)))) = true then _ else _ :
          Parser (Array (Stmt Unit) ⊕ List (Stmt Unit))) ⟨t :: ts, endLine, errors⟩)
        split
        · next brace =>
            have stops : stop = true := by
              simp only [Bool.false_or, Bool.and_eq_true] at brace
              exact brace.1
            exact .quiet (w := []) rfl (by simp) rfl (ended _ (by simp [stops]))
        · refine (round _ (fun _ => rfl) rfl _ rfl hs).mono (fun _ => Nat.le_refl _) ?_
          rintro w r _ - ⟨s, rfl, hs⟩ w' r' ss - ⟨ss', ⟨parts, hp, rfl, rfl⟩, rfl, hr⟩
          refine ⟨s :: parts.map Prod.snd, ⟨(w, s) :: parts, ?_, rfl, rfl⟩, by simp, hr⟩
          intro x hx
          rcases List.mem_cons.1 hx with rfl | hx
          · exact hs
          · exact hp x hx
  · rintro w r ss ⟨ss', spelled, rfl, hr⟩
    exact ⟨by simpa using spelled, hr⟩

theorem block_spells (hn : n < fuel)
    (h : 1 ≤ n → Finds n (fun _ => 1) d fun w _ s => s.Spelled .declaration w) :
    SpellsBlock n (block fuel (recovering d)) := by
  refine (declarations_spells hn true h).andThen fun ss _ => (Finds.symbolAfter _ _).andThen fun c _ => ?_
  refine .pure (by simp) fun r u hu w hw => ?_
  obtain ⟨rfl, hc⟩ := hu
  obtain ⟨⟨parts, hp, rfl, rfl⟩, _⟩ := hw
  exact ⟨parts, c, hp, hc, by simp, rfl⟩

theorem parameters_spells (hn : n < fuel) :
    Finds n (fun _ => 0) (parameters fuel) fun w _ xs => ∃ parts : List (List Token × Name),
      (∀ x ∈ parts, ∃ t, x.1 = [t] ∧ t.name? = some x.2) ∧ Commas (parts.map Prod.fst) w ∧
        xs = parts.map Prod.snd ∧ parts.length ≤ maxArguments := by
  refine (Finds.atSymbol _).andThen fun c _ => ?_
  cases c with
  | true =>
      refine .pure (by simp) fun r u hu => ⟨[], by simp, ?_, by simp, by simp⟩
      obtain ⟨rfl, _⟩ := hu
      exact .nil
  | false =>
      refine (Finds.commaSeparated (Finds.name _) _ hn).mono (by simp) fun w r xs => ?_
      rintro ⟨parts, _, hI, commas, rfl, few⟩ u ⟨rfl, _⟩
      exact ⟨parts, hI, commas, rfl, few⟩

theorem callable_spells (hn : n < fuel) (kind : CallableKind) (h : SpellsBlock n b) :
    Finds n (fun _ => 1) (callable fuel kind b) fun w _ f => ∃ m : CallableText, m.Framed ∧
      (∀ x ∈ m.body, x.2.Spelled .declaration x.1) ∧ w = m.tokens ∧ f = m.decl := by
  refine (Finds.name _).andThen fun x _ => (Finds.symbolAfter _ _).andThen fun l _ => ?_
  refine (parameters_spells (by omega)).andThen fun ps _ => (Finds.symbolAfter _ _).andThen fun r _ => ?_
  refine (Finds.symbolBefore _ _).andThen fun o _ => (Finds.fewer h (by omega)).andThen fun ss _ => ?_
  refine .pure (by simp) ?_
  intro rest w hw u hu u' hu' v hv u'' hu'' w' hw'
  obtain ⟨body, c, hbody, hc, rfl, rfl⟩ := hw
  obtain ⟨rfl, ho⟩ := hu
  obtain ⟨rfl, hr⟩ := hu'
  obtain ⟨params, hparams, commas, rfl, few⟩ := hv
  obtain ⟨rfl, hl⟩ := hu''
  obtain ⟨t, rfl, ht⟩ := hw'
  have header := CallableText.Header.mk ht hl hparams commas few hr ho
  exact ⟨⟨_, x, _, body, c⟩, ⟨header, hc⟩, hbody, by simp [CallableText.tokens], rfl⟩

theorem superclass_spells : Finds n (fun _ => 0) superclass fun w _ o => SuperclassSpelled w o := by
  refine (Finds.symbol? _).andThen fun o _ => ?_
  cases o with
  | none =>
      refine .pure (by simp) fun r u hu => ?_
      obtain ⟨_, rfl, _⟩ | ⟨_, ho, _⟩ := hu
      · exact .absent
      · cases ho
  | some _ =>
      refine (Finds.name _).andThen fun x _ => .pure (by simp) fun r u hu w hw => ?_
      obtain ⟨t, rfl, ht⟩ := hu
      obtain ⟨ho, _⟩ | ⟨s, _, rfl, hs⟩ := hw
      · cases ho
      · exact .present hs ht

theorem methods_spells (hn : n < fuel) (h : SpellsBlock n b) :
    Finds n (fun _ => 0) (methods fuel b) fun w _ ms => ∃ parts : List CallableText, (∀ m ∈ parts, m.Framed) ∧
      (∀ m ∈ parts, ∀ x ∈ m.body, x.2.Spelled .declaration x.1) ∧
        w = (parts.map CallableText.tokens).flatten ∧ ms = parts.map CallableText.decl := by
  unfold methods
  let R (done : Array (FunctionDecl Unit)) (w _ : List Token) (ms : List (FunctionDecl Unit)) : Prop :=
    ∃ parts : List CallableText, (∀ m ∈ parts, m.Framed) ∧
      (∀ m ∈ parts, ∀ x ∈ m.body, x.2.Spelled .declaration x.1) ∧
        w = (parts.map CallableText.tokens).flatten ∧ ms = done.toList ++ parts.map CallableText.decl
  refine (Finds.repeating (R := R) (fun done => ?_) hn #[]).mono (by simp) ?_
  · refine Finds.atEnd.andThen fun atEnd _ => (Finds.atSymbol _).andThen fun atBrace _ => ?_
    split
    · refine .pure (by simp) fun r u hu w hw => ⟨[], by simp, by simp, ?_, by simp⟩
      obtain ⟨rfl, _⟩ := hu
      obtain ⟨rfl, _⟩ := hw
      rfl
    · refine (callable_spells (by omega) _ (Finds.fewer h (by omega))).andThen fun f _ => .pure (by simp) ?_
      rintro r w hw u ⟨rfl, _⟩ u' ⟨rfl, _⟩ w' r' ms - ⟨parts, framed, bodies, rfl, rfl⟩
      obtain ⟨m, hm, hbody, rfl, rfl⟩ := hw
      refine ⟨m :: parts, ?_, ?_, by simp, by simp⟩
      · intro m' hm'
        rcases List.mem_cons.1 hm' with rfl | hm'
        · exact hm
        · exact framed m' hm'
      · intro m' hm'
        rcases List.mem_cons.1 hm' with rfl | hm'
        · exact hbody
        · exact bodies m' hm'
  · rintro w r ms ⟨parts, framed, bodies, rfl, rfl⟩
    exact ⟨parts, framed, bodies, rfl, by simp⟩

theorem classDeclaration_spells (hn : n < fuel) (h : SpellsBlock n b) {t : Token}
    (ht : t.kind = .keyword .classWord) :
    Finds n (fun _ => 0) (classDeclaration fuel b) fun w _ s => s.Spelled .declaration (t :: w) := by
  refine (Finds.name _).andThen fun x _ => superclass_spells.andThen fun o _ => ?_
  refine (Finds.symbolBefore _ _).andThen fun l _ => ?_
  refine (methods_spells (by omega) (Finds.fewer h (by omega))).andThen fun ms _ => ?_
  refine (Finds.symbolAfter _ _).andThen fun r _ => .pure (by simp) ?_
  intro rest u hu w hw u' hu' v hv w' hw'
  obtain ⟨rfl, hr⟩ := hu
  obtain ⟨parts, framed, bodies, rfl, rfl⟩ := hw
  obtain ⟨rfl, hl⟩ := hu'
  obtain ⟨n, rfl, hn⟩ := hw'
  simpa using Stmt.Spelled.classDecl ht hn hv hl framed bodies hr

theorem statement_declaration_spells (fuel : Nat) :
    (∀ n, 2 * n + 4 ≤ fuel → SpellsStatement n (statement fuel)) ∧
      ∀ n, 2 * n + 5 ≤ fuel → Finds n (fun _ => 1) (declaration fuel) fun w _ s => s.Spelled .declaration w := by
  induction fuel with
  | zero => exact ⟨fun n hn => by omega, fun n hn => by omega⟩
  | succ fuel ih =>
      have blocks : ∀ n, 1 ≤ n → 2 * n + 4 ≤ fuel + 1 →
          SpellsBlock (n - 1) (block fuel (recovering (declaration fuel))) :=
        fun n pos hn => block_spells (by omega) fun _ => ih.2 (n - 1) (by omega)
      refine ⟨fun n hn => ?_, fun n hn => ?_⟩
      · have inner : ∀ m, m ≤ n → 2 * m + 3 ≤ fuel := fun m hm => by omega
        have expressions : Finds n (fun _ => 1) (expressionStatement fuel) fun w r s =>
            ∃ dangling, s.Spelled (.statement dangling) w ∧ (dangling = true → NoElse r) :=
          (expressionStatement_spells (inner n (Nat.le_refl n))).mono (fun _ => Nat.le_refl 1)
            fun w r s hs => ⟨false, hs.1, nofun⟩
        refine Finds.front (expressions.fewer (Nat.zero_le n)) fun t ts pos => ?_
        have few := inner (n - 1) (Nat.sub_le n 1)
        have branch : SpellsStatement (n - 1) (statement fuel) := ih.1 (n - 1) (by omega)
        dsimp only
        split
        · next ht => exact FindsAt.next (forStatement_spells few branch ht)
        · next ht => exact FindsAt.next (ifStatement_spells few branch ht)
        · next ht =>
            exact FindsAt.next ((printStatement_spells few ht).mono (by simp) fun w r s hs => ⟨false, hs, nofun⟩)
        · next ht =>
            exact FindsAt.next ((returnStatement_spells few ht).mono (by simp) fun w r s hs => ⟨false, hs, nofun⟩)
        · next ht => exact FindsAt.next (whileStatement_spells few branch ht)
        · next ht =>
            refine FindsAt.next ((blocks n pos hn).andThen fun ss _ => .pure (by simp) fun r w hw => ?_)
            obtain ⟨parts, c, hp, hc, rfl, rfl⟩ := hw
            exact ⟨false, by simpa using Stmt.Spelled.block ht hp hc, nofun⟩
        · exact FindsAt.of expressions
      · have statements : ∀ m, m ≤ n → Finds m (fun _ => 1) (statement fuel) fun w _ s => s.Spelled .declaration w :=
          fun m hm => (ih.1 m (by omega)).mono (fun _ => Nat.le_refl 1) fun w r s hs => .statement hs.choose_spec.1
        refine Finds.frontKind (statements 0 (Nat.zero_le n)) fun t ts pos => ?_
        have block := blocks n pos (by omega)
        split
        · next ht =>
            have word : t.kind = .keyword .classWord := Option.some.inj ht
            exact FindsAt.next ((classDeclaration_spells (by omega) block word).mono (by simp) fun w r s hs => hs)
        · next ht =>
            have word : t.kind = .keyword .funWord := Option.some.inj ht
            refine FindsAt.next ?_
            refine (callable_spells (by omega) _ block).andThen fun f _ => .pure (by simp) fun r w hw => ?_
            obtain ⟨m, framed, bodies, rfl, rfl⟩ := hw
            simpa using Stmt.Spelled.function word framed bodies
        · next ht =>
            have word : t.kind = .keyword .varWord := Option.some.inj ht
            have few : 2 * (n - 1) + 3 ≤ fuel := by omega
            exact FindsAt.next ((varDeclaration_spells few).mono (by simp) fun w r s hs => .var word hs)
        · exact FindsAt.of (statements n (Nat.le_refl n))

theorem program_spells (hn : 2 * n + 5 ≤ fuel ∨ n = 0 ∧ 0 < fuel) :
    Finds n (fun _ => 0) (program fuel) fun w r ss => Stmts.Spelled w ss ∧ r = [] := by
  have enough : n < fuel := by omega
  have found := declarations_spells enough false fun pos => (statement_declaration_spells fuel).2 n (by omega)
  exact found.mono (fun _ => Nat.le_refl 0) fun w r ss h => ⟨h.1, h.2 rfl⟩

end Statements

end Parser

/-- A program that is read without an error is spelled by the whole text. -/
theorem Stmt.spelled_of_parse {ts : TokenList} (quiet : (Stmt.parse ts).errors = []) :
    Stmts.Spelled ts.tokens (Stmt.parse ts).value := by
  have enough : 2 * ts.tokens.length + 5 ≤ ts.fuel ∨ ts.tokens.length = 0 ∧ 0 < ts.fuel := by
    unfold TokenList.fuel
    omega
  obtain ⟨w, r, hw, spelled, rfl⟩ := (Parser.program_spells enough).run (Nat.le_refl _) quiet
  rwa [hw, List.append_nil]

end LoxScript
