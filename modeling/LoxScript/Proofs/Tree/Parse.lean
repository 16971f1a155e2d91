import LoxScript.Proofs.Tree.Proper
import LoxScript.Token.Scan
import LoxScript.Tree.Parse.Statement

/-!
# Parsed trees are proper

`Yields` says what a parser gives on tokens that a scanner may have made, and that its errors are at these tokens or at
the end of the text; there is one law for each way to compose parsers.
-/

namespace LoxScript

/-- Tokens as a scanner makes them: no identifier is a reserved word. -/
def Token.Plain (t : Token) : Prop :=
  ∀ name, t.kind = .identifier name → Keyword.ofText? name = none

/-- An error at one of the tokens of which `P` is known, or at the end of the text. -/
def Located.IsAt {ε : Type} (P : Token → Prop) (e : Located ε) : Prop :=
  e.place = .atEnd ∨ ∃ t, P t ∧ e.place = .atLexeme t.lexeme

/-- What is known of the tokens that are still to be read and of the errors found so far. -/
structure ParseState.Knows (P : Token → Prop) (s : ParseState) : Prop where
  rest : ∀ t ∈ s.rest, t.Plain ∧ P t
  errors : ∀ e ∈ s.errors.toList, e.IsAt P

theorem ParseState.Knows.push {P : Token → Prop} {s : ParseState} (h : s.Knows P) {e : Located SyntaxError}
    (he : e.IsAt P) : ParseState.Knows P { s with errors := s.errors.push e } := by
  refine ⟨h.rest, fun e' he' => ?_⟩
  rcases List.mem_append.1 (Array.toList_push ▸ he') with old | new
  · exact h.errors e' old
  · exact List.mem_singleton.1 new ▸ he

namespace Parser

variable {α β σ : Type} {P : Token → Prop}

/-- The result of a parser that only consumes tokens; `Q` is known of what it gives. -/
inductive Ends (P : Token → Prop) (Q : α → Prop) : EStateM.Result ParseFailure ParseState α → Prop where
  | ok {a s} : s.Knows P → Q a → Ends P Q (.ok a s)
  | error {f s} : s.Knows P → Ends P Q (.error f s)

/-- `Q` is known of whatever a parser reads from tokens of a scanner, and it reports errors at these tokens only. -/
def Yields (P : Token → Prop) (p : Parser α) (Q : α → Prop) : Prop :=
  ∀ s : ParseState, s.Knows P → Ends P Q (p s)

namespace Yields

variable {Q R : α → Prop} {p : Parser α}

theorem pure {a : α} (h : Q a) : Yields P (Pure.pure a) Q :=
  fun _ hs => .ok hs h

theorem mono (h : Yields P p Q) (hQ : ∀ a, Q a → R a) : Yields P p R := by
  intro s hs
  have he := h s hs
  cases hp : p s with
  | ok a s' =>
      rw [hp] at he
      cases he with
      | ok hs' ha => exact .ok hs' (hQ a ha)
  | error f s' =>
      rw [hp] at he
      cases he with
      | error hs' => exact .error hs'

theorem bind {S : β → Prop} {f : α → Parser β} (h : Yields P p Q) (hf : ∀ a, Q a → Yields P (f a) S) :
    Yields P (p >>= f) S := by
  intro s hs
  have he := h s hs
  show Ends P S (EStateM.bind p f s)
  unfold EStateM.bind
  cases hp : p s with
  | ok a s' =>
      rw [hp] at he
      cases he with
      | ok hs' ha => exact hf a ha s' hs'
  | error f s' =>
      rw [hp] at he
      cases he with
      | error hs' => exact .error hs'

theorem map {S : β → Prop} {f : α → β} (h : Yields P p Q) (hf : ∀ a, Q a → S (f a)) : Yields P (f <$> p) S := by
  have composed : f <$> p = p >>= fun a => Pure.pure (f a) := (bind_pure_comp f p).symm
  rw [composed]
  exact h.bind fun a ha => .pure (hf a ha)

theorem throw {f : ParseFailure} : Yields P (MonadExcept.throw f : Parser α) Q :=
  fun _ hs => .error hs

theorem remaining : Yields P remaining fun ts => ∀ t ∈ ts, t.Plain ∧ P t :=
  fun _ hs => .ok hs hs.rest

theorem nextKind? : Yields P nextKind? fun _ => True :=
  remaining.bind fun _ _ => .pure trivial

theorem advance : Yields P advance fun _ => True :=
  fun _ hs => .ok ⟨fun t ht => hs.rest t (List.mem_of_mem_tail ht), hs.errors⟩ trivial

theorem reportAt {t : Token} (ht : P t) (cause : SyntaxError) : Yields P (reportAt t cause) fun _ => True :=
  fun _ hs => .ok (hs.push (.inr ⟨t, ht, rfl⟩)) trivial

theorem report (cause : SyntaxError) : Yields P (report cause) fun _ => True := by
  refine remaining.bind fun ts hts => ?_
  cases ts with
  | nil => exact fun _ hs => .ok (hs.push (.inl rfl)) trivial
  | cons t _ => exact reportAt (hts t List.mem_cons_self).2 cause

theorem reject {cause : SyntaxError} : Yields P (Parser.reject cause : Parser α) Q :=
  (report cause).bind fun _ _ => throw

theorem accept? {f : Token → Option α} (hf : ∀ t a, t.Plain → P t → f t = some a → Q a) :
    Yields P (accept? f) fun o => ∀ a ∈ o, Q a := by
  refine remaining.bind fun ts hts => ?_
  cases ts with
  | nil => exact .pure (by simp)
  | cons t _ =>
      dsimp only
      cases h : f t with
      | none => exact .pure (by simp)
      | some a =>
          refine advance.bind fun _ _ => .pure fun b hb => ?_
          cases hb
          exact hf t a (hts t List.mem_cons_self).1 (hts t List.mem_cons_self).2 h

theorem symbol? (s : Symbol) : Yields P (symbol? s) fun o => ∀ t ∈ o, P t := by
  refine accept? fun t u _ ht hu => ?_
  split at hu
  · cases hu
    exact ht
  · cases hu

theorem symbol (s : Symbol) (cause : SyntaxError) : Yields P (symbol s cause) fun _ => True := by
  refine (symbol? s).bind fun t _ => ?_
  cases t with
  | none => exact reject
  | some t => exact .pure trivial

theorem symbolAfter (s : Symbol) (clause : Clause) : Yields P (symbolAfter s clause) fun _ => True :=
  symbol s _

theorem symbolBefore (s : Symbol) (clause : Clause) : Yields P (symbolBefore s clause) fun _ => True :=
  symbol s _

theorem atSymbol (s : Symbol) : Yields P (atSymbol s) fun _ => True :=
  nextKind?.bind fun _ _ => .pure trivial

theorem atEnd : Yields P atEnd fun _ => True :=
  remaining.bind fun _ _ => .pure trivial

theorem name (role : NameRole) : Yields P (name role) Name.IsIdentifier := by
  have read : Yields P (Parser.accept? Token.name?) fun o => ∀ n ∈ o, n.IsIdentifier := by
    refine accept? fun t n ht _ hn => ?_
    unfold Token.name? at hn
    split at hn
    · next text hk =>
        cases hn
        exact ht text hk
    · cases hn
  refine read.bind fun n hn => ?_
  cases n with
  | none => exact reject
  | some n => exact .pure (hn n rfl)

/-- What a loop gives, if `I` holds from round to round. -/
theorem repeating {I : σ → Prop} {step : σ → Parser (σ ⊕ α)}
    (h : ∀ a, I a → Yields P (step a) (Sum.elim I Q)) (fuel : Nat) {a : σ} (ha : I a) :
    Yields P (repeating step fuel a) Q := by
  induction fuel generalizing a with
  | zero => exact throw
  | succ fuel ih =>
      refine (h a ha).bind fun b hb => ?_
      cases b with
      | inl a => exact ih hb
      | inr b => exact .pure hb

theorem commaSeparated (fuel : Nat) (cause : SyntaxError) (h : Yields P p Q) :
    Yields P (commaSeparated fuel p cause) fun as => ∀ a ∈ as, Q a := by
  unfold Parser.commaSeparated
  refine repeating (I := fun as : Array α => ∀ a ∈ as, Q a) (fun as has => ?_) fuel (by simp)
  have pushed : ∀ a, Q a → ∀ b ∈ as.push a, Q b := by
    intro a ha b hb
    rcases Array.mem_push.1 hb with hb | rfl
    · exact has b hb
    · exact ha
  have comma : ∀ (a : α) (k : Option Token → Parser (Array α ⊕ List α)), Q a →
      (∀ t, k (some t) = Pure.pure (.inl (as.push a))) → k none = Pure.pure (.inr (as.push a).toList) →
      Yields P (Parser.symbol? .comma >>= k) (Sum.elim (fun as => ∀ a ∈ as, Q a) fun as => ∀ a ∈ as, Q a) := by
    intro a k ha more last
    refine (symbol? .comma).bind fun t _ => ?_
    cases t with
    | none =>
        rw [last]
        exact .pure fun b hb => pushed a ha b (Array.mem_toList_iff.1 hb)
    | some t =>
        rw [more]
        exact .pure (pushed a ha)
  dsimp only
  split
  · exact (report cause).bind fun _ _ => h.bind fun a ha => comma a _ ha (fun _ => rfl) rfl
  · exact h.bind fun a ha => comma a _ ha (fun _ => rfl) rfl

theorem recovering (h : Yields P p Q) : Yields P (recovering p) fun o => ∀ a ∈ o, Q a := by
  intro s hs
  have he := h s hs
  have skipped : ∀ (last : Token) (ts : List Token), ∀ t ∈ skipStatement last ts, t ∈ ts := by
    intro last ts
    induction ts generalizing last with
    | nil => exact fun _ ht => ht
    | cons u us ih =>
        intro t ht
        unfold skipStatement at ht
        split at ht
        · exact ht
        · exact List.mem_cons_of_mem _ (ih u t ht)
  unfold Parser.recovering
  cases hp : p s with
  | ok a s' =>
      rw [hp] at he
      cases he with
      | ok hs' ha =>
          refine .ok hs' fun b hb => ?_
          cases hb
          exact ha
  | error f s' =>
      rw [hp] at he
      cases he with
      | error hs' =>
          cases f with
          | outOfFuel => exact .error hs'
          | rejected =>
              refine .ok ⟨fun t ht => ?_, hs'.errors⟩ (by simp)
              have rest : t ∈ s'.rest := by
                cases hr : s'.rest with
                | nil =>
                    rw [hr] at ht
                    cases ht
                | cons u us =>
                    rw [hr] at ht
                    exact List.mem_cons_of_mem _ (skipped u us t ht)
              exact hs'.rest t rest

end Yields

/-! ## Expressions -/

section Expressions

variable {p q : Parser (Expr Unit)}

theorem operand_yields (h : Yields P p Expr.Proper) : Yields P (operand p) Expr.Proper := by
  refine Yields.remaining.bind fun ts hts => ?_
  cases ts with
  | nil => exact .reject
  | cons t rest =>
      have plain := (hts t List.mem_cons_self).1
      unfold Token.Plain at plain
      have literal : ∀ v, Yields P (do advance; return Expr.literal v) Expr.Proper :=
        fun v => Yields.advance.bind fun _ _ => .pure .literal
      dsimp only
      split
      · exact literal _
      · exact literal _
      · exact literal _
      · exact literal _
      · exact literal _
      · refine Yields.advance.bind fun _ _ => (Yields.symbolAfter _ _).bind fun _ _ => ?_
        exact (Yields.name _).bind fun _ _ => .pure .super
      · exact Yields.advance.bind fun _ _ => .pure .this
      · next text hk => exact Yields.advance.bind fun _ _ => .pure (.var (plain text hk))
      · refine Yields.advance.bind fun _ _ => h.bind fun e he => ?_
        exact (Yields.symbolAfter _ _).bind fun _ _ => .pure (.grouping he)
      · exact .reject

theorem arguments_yields (fuel : Nat) (h : Yields P p Expr.Proper) :
    Yields P (arguments fuel p) fun es => ∀ e ∈ es, e.Proper := by
  refine (Yields.atSymbol _).bind fun b _ => ?_
  cases b with
  | true => exact .pure (by simp)
  | false => exact Yields.commaSeparated fuel _ h

theorem callChain_yields (fuel : Nat) (h : Yields P p Expr.Proper) : Yields P (callChain fuel p) Expr.Proper := by
  unfold callChain
  refine (operand_yields h).bind fun e he => Yields.repeating (I := Expr.Proper) (fun e he => ?_) fuel he
  refine (Yields.symbol? _).bind fun t _ => ?_
  cases t with
  | some _ =>
      refine (arguments_yields fuel h).bind fun es hes => ?_
      exact (Yields.symbolAfter _ _).bind fun _ _ => .pure (.call he hes)
  | none =>
      refine (Yields.symbol? _).bind fun t _ => ?_
      cases t with
      | some _ => exact (Yields.name _).bind fun _ _ => .pure (.get he)
      | none => exact .pure he

theorem signed_yields (hp : Yields P p Expr.Proper) (hq : Yields P q Expr.Proper) :
    Yields P (signed p q) Expr.Proper := by
  refine (Yields.accept? (Q := fun _ => True) fun _ _ _ _ _ => trivial).bind fun o _ => ?_
  cases o with
  | none => exact hq
  | some _ => exact hp.bind fun e he => .pure (.unary he)

theorem build_proper {line : Int} {a b : Expr Unit} (ha : a.Proper) (hb : b.Proper) (j : Join) :
    (j.build line a b).Proper := by
  cases j with
  | logical op => exact .logical ha hb
  | binary op => exact .binary ha hb

theorem joined_yields (fuel : Nat) (level : Level) (h : Yields P p Expr.Proper) :
    Yields P (joined fuel level p) Expr.Proper := by
  unfold joined
  refine h.bind fun e he => Yields.repeating (I := Expr.Proper) (fun e he => ?_) fuel he
  refine (Yields.accept? (Q := fun _ => True) fun _ _ _ _ _ => trivial).bind fun o _ => ?_
  cases o with
  | none => exact .pure he
  | some j => exact h.bind fun b hb => .pure (build_proper he hb j.1)

theorem joinedAll_yields (fuel : Nat) (h : Yields P p Expr.Proper) (levels : List Level) :
    Yields P (joinedAll fuel p levels) Expr.Proper := by
  induction levels with
  | nil => exact h
  | cons level tighter ih => exact joined_yields fuel level ih

theorem assignTo?_proper {a v e : Expr Unit} (ha : a.Proper) (hv : v.Proper) (h : assignTo? a v = some e) :
    e.Proper := by
  unfold assignTo? at h
  split at h
  · cases h
    cases ha with
    | var hn => exact .assign hn hv
  · cases h
    cases ha with
    | get ho => exact .set ho hv
  · cases h

theorem assignment_yields (hp : Yields P p Expr.Proper) (hq : Yields P q Expr.Proper) :
    Yields P (assignment p q) Expr.Proper := by
  refine hq.bind fun a ha => (Yields.symbol? _).bind fun t ht => ?_
  cases t with
  | none => exact .pure ha
  | some equals =>
      refine hp.bind fun v hv => ?_
      cases h : assignTo? a v with
      | some e => exact .pure (assignTo?_proper ha hv h)
      | none => exact (Yields.reportAt (ht equals rfl) _).bind fun _ _ => .pure ha

theorem expression_unary_yields (fuel : Nat) :
    Yields P (expression fuel) Expr.Proper ∧ Yields P (unary fuel) Expr.Proper := by
  induction fuel with
  | zero => exact ⟨.throw, .throw⟩
  | succ fuel ih =>
      refine ⟨?_, ?_⟩
      · exact assignment_yields ih.1 (joinedAll_yields fuel ih.2 _)
      · exact signed_yields ih.2 (callChain_yields fuel ih.1)

theorem expression_yields (fuel : Nat) : Yields P (expression fuel) Expr.Proper :=
  (expression_unary_yields fuel).1

end Expressions

/-! ## Statements -/

def IsBody (s : Stmt Unit) : Prop :=
  s.Proper ∧ s.declared? = none

theorem expressionStatement_yields (fuel : Nat) : Yields P (expressionStatement fuel) IsBody :=
  (expression_yields fuel).bind fun _ he => (Yields.symbolAfter _ _).bind fun _ _ => .pure ⟨.expression he, rfl⟩

theorem printStatement_yields (fuel : Nat) : Yields P (printStatement fuel) IsBody :=
  (expression_yields fuel).bind fun _ he => (Yields.symbolAfter _ _).bind fun _ _ => .pure ⟨.print he, rfl⟩

theorem varDeclaration_yields (fuel : Nat) : Yields P (varDeclaration fuel) Stmt.Proper := by
  refine (Yields.name _).bind fun n hn => (Yields.symbol? _).bind fun t _ => ?_
  have declared : ∀ e : Option (Expr Unit), (∀ i ∈ e, i.Proper) → Yields P (do
      let _ ← symbolAfter .semicolon .variableDeclaration
      return Stmt.var n e) Stmt.Proper :=
    fun e he => (Yields.symbolAfter _ _).bind fun _ _ => .pure (.var hn he)
  cases t with
  | none => exact declared none (by simp)
  | some _ =>
      have initializer : Yields P (some <$> expression fuel) fun e => ∀ i ∈ e, i.Proper :=
        (expression_yields fuel).map fun e he i hi => by
          cases hi
          exact he
      exact initializer.bind fun e he => declared e he

theorem expressionUnless_yields (fuel : Nat) (s : Symbol) :
    Yields P (expressionUnless fuel s) fun e => ∀ i ∈ e, i.Proper := by
  refine (Yields.atSymbol _).bind fun b _ => ?_
  cases b with
  | true => exact .pure (by simp)
  | false =>
      exact (expression_yields fuel).map fun e he i hi => by
        cases hi
        exact he

theorem returnStatement_yields (fuel : Nat) (line : Int) : Yields P (returnStatement fuel line) IsBody :=
  (expressionUnless_yields fuel _).bind fun _ he =>
    (Yields.symbolAfter _ _).bind fun _ _ => .pure ⟨.ret he, rfl⟩

theorem ifStatement_yields (fuel : Nat) {p : Parser (Stmt Unit)} (h : Yields P p IsBody) :
    Yields P (ifStatement fuel p) IsBody := by
  refine (Yields.symbolAfter _ _).bind fun _ _ => (expression_yields fuel).bind fun c hc => ?_
  refine (Yields.symbolAfter _ _).bind fun _ _ => h.bind fun t ht => ?_
  refine (Yields.accept? (Q := fun _ => True) fun _ _ _ _ _ => trivial).bind fun o _ => ?_
  cases o with
  | none => exact .pure ⟨.ite hc ht.2 ht.1 (by simp) (by simp), rfl⟩
  | some _ =>
      refine h.bind fun e he => .pure ⟨.ite hc ht.2 ht.1 (fun s hs => ?_) (fun s hs => ?_), rfl⟩
      · cases hs
        exact he.2
      · cases hs
        exact he.1

theorem whileStatement_yields (fuel : Nat) {p : Parser (Stmt Unit)} (h : Yields P p IsBody) :
    Yields P (whileStatement fuel p) IsBody := by
  refine (Yields.symbolAfter _ _).bind fun _ _ => (expression_yields fuel).bind fun c hc => ?_
  exact (Yields.symbolAfter _ _).bind fun _ _ => h.bind fun b hb => .pure ⟨.loop hc hb.2 hb.1, rfl⟩

theorem forInitializer_yields (fuel : Nat) : Yields P (forInitializer fuel) fun s => ∀ i ∈ s, i.Proper := by
  have some_proper : ∀ {p : Parser (Stmt Unit)}, Yields P p Stmt.Proper →
      Yields P (some <$> p) fun s => ∀ i ∈ s, i.Proper :=
    fun h => h.map fun s hs i hi => by
      cases hi
      exact hs
  refine (Yields.symbol? _).bind fun t _ => ?_
  cases t with
  | some _ => exact .pure (by simp)
  | none =>
      refine (Yields.accept? (Q := fun _ => True) fun _ _ _ _ _ => trivial).bind fun o _ => ?_
      cases o with
      | some _ => exact some_proper (varDeclaration_yields fuel)
      | none => exact some_proper ((expressionStatement_yields fuel).mono fun _ h => h.1)

theorem forLoop_isBody {initializer : Option (Stmt Unit)} {condition increment : Option (Expr Unit)}
    {body : Stmt Unit} (hi : ∀ i ∈ initializer, i.Proper) (hc : ∀ e ∈ condition, e.Proper)
    (hn : ∀ e ∈ increment, e.Proper) (hb : IsBody body) :
    IsBody (Stmt.forLoop initializer condition increment body) := by
  have test : (condition.getD (.literal (.bool true))).Proper := by
    cases condition with
    | none => exact .literal
    | some e => exact hc e rfl
  have loop : ∀ b : Stmt Unit, IsBody b → IsBody (.loop (condition.getD (.literal (.bool true))) b) :=
    fun b hb => ⟨.loop test hb.2 hb.1, rfl⟩
  have outer : ∀ (i : Stmt Unit) (l : Stmt Unit), i ∈ initializer → IsBody l → IsBody (.block [i, l]) :=
    fun i l hmem hl => ⟨.block (by simpa using ⟨hi i hmem, hl.1⟩), rfl⟩
  cases increment with
  | none =>
      have repeated := loop body hb
      cases initializer with
      | none => exact repeated
      | some i => exact outer i _ rfl repeated
  | some e =>
      have stepped : IsBody (.block [body, .expression e]) :=
        ⟨.block (by simpa using ⟨hb.1, Stmt.Proper.expression (hn e rfl)⟩), rfl⟩
      have repeated := loop _ stepped
      cases initializer with
      | none => exact repeated
      | some i => exact outer i _ rfl repeated

theorem forStatement_yields (fuel : Nat) {p : Parser (Stmt Unit)} (h : Yields P p IsBody) :
    Yields P (forStatement fuel p) IsBody := by
  refine (Yields.symbolAfter _ _).bind fun _ _ => (forInitializer_yields fuel).bind fun i hi => ?_
  refine (expressionUnless_yields fuel _).bind fun c hc => (Yields.symbolAfter _ _).bind fun _ _ => ?_
  refine (expressionUnless_yields fuel _).bind fun e he => (Yields.symbolAfter _ _).bind fun _ _ => ?_
  exact h.bind fun b hb => .pure (forLoop_isBody hi hc he hb)

theorem declarations_yields (fuel : Nat) (stopAtBrace : Bool) {p : Parser (Option (Stmt Unit))}
    (h : Yields P p fun o => ∀ s ∈ o, s.Proper) :
    Yields P (declarations fuel stopAtBrace p) fun ss => ∀ s ∈ ss, s.Proper := by
  unfold declarations
  refine Yields.repeating (I := fun done : Array (Stmt Unit) => ∀ s ∈ done, s.Proper) (fun done hdone => ?_)
    fuel (by simp)
  have finished : Yields P (Pure.pure (Sum.inr done.toList) : Parser (Array (Stmt Unit) ⊕ List (Stmt Unit)))
      (Sum.elim (fun done => ∀ s ∈ done, s.Proper) fun ss => ∀ s ∈ ss, s.Proper) :=
    .pure fun s hs => hdone s (Array.mem_toList_iff.1 hs)
  have next : ∀ k : Option (Stmt Unit) → Parser (Array (Stmt Unit) ⊕ List (Stmt Unit)),
      (∀ s, k (some s) = pure (.inl (done.push s))) → k none = pure (.inl done) →
      Yields P (p >>= k) (Sum.elim (fun done => ∀ s ∈ done, s.Proper) fun ss => ∀ s ∈ ss, s.Proper) := by
    intro k taken skipped
    refine h.bind fun o ho => ?_
    cases o with
    | none =>
        rw [skipped]
        exact .pure hdone
    | some s =>
        rw [taken]
        refine .pure fun t ht => ?_
        rcases Array.mem_push.1 ht with ht | rfl
        · exact hdone t ht
        · exact ho t rfl
  refine Yields.atEnd.bind fun b _ => ?_
  cases b with
  | true => exact finished
  | false =>
      cases stopAtBrace with
      | false => exact next _ (fun _ => rfl) rfl
      | true =>
          refine (Yields.atSymbol _).bind fun b _ => ?_
          cases b with
          | true => exact finished
          | false => exact next _ (fun _ => rfl) rfl

theorem block_yields (fuel : Nat) {p : Parser (Option (Stmt Unit))} (h : Yields P p fun o => ∀ s ∈ o, s.Proper) :
    Yields P (block fuel p) fun ss => ∀ s ∈ ss, s.Proper :=
  (declarations_yields fuel true h).bind fun _ hb => (Yields.symbolAfter _ _).bind fun _ _ => .pure hb

theorem parameters_yields (fuel : Nat) : Yields P (parameters fuel) fun ns => ∀ n ∈ ns, n.IsIdentifier := by
  refine (Yields.atSymbol _).bind fun b _ => ?_
  cases b with
  | true => exact .pure (by simp)
  | false => exact Yields.commaSeparated fuel _ (Yields.name _)

theorem callable_yields (fuel : Nat) (kind : CallableKind) {p : Parser (List (Stmt Unit))}
    (h : Yields P p fun ss => ∀ s ∈ ss, s.Proper) :
    Yields P (callable fuel kind p) fun d => d.Proper ∧ d.name.IsIdentifier := by
  refine (Yields.name _).bind fun n hn => (Yields.symbolAfter _ _).bind fun _ _ => ?_
  refine (parameters_yields fuel).bind fun ps hps => (Yields.symbolAfter _ _).bind fun _ _ => ?_
  exact (Yields.symbolBefore _ _).bind fun _ _ => h.bind fun b hb => .pure ⟨.mk hps hb, hn⟩

theorem superclass_yields : Yields P superclass fun c => ∀ p ∈ c, p.1.IsIdentifier := by
  refine (Yields.symbol? _).bind fun t _ => ?_
  cases t with
  | none => exact .pure (by simp)
  | some _ =>
      refine (Yields.name _).bind fun n hn => .pure fun p hp => ?_
      cases hp
      exact hn

theorem methods_yields (fuel : Nat) {p : Parser (List (Stmt Unit))} (h : Yields P p fun ss => ∀ s ∈ ss, s.Proper) :
    Yields P (methods fuel p) fun ds => ∀ d ∈ ds, d.Proper := by
  unfold methods
  refine Yields.repeating (I := fun done : Array (FunctionDecl Unit) => ∀ d ∈ done, d.Proper)
    (fun done hdone => ?_) fuel (by simp)
  have finished : Yields P
      (Pure.pure (Sum.inr done.toList) : Parser (Array (FunctionDecl Unit) ⊕ List (FunctionDecl Unit)))
      (Sum.elim (fun done => ∀ d ∈ done, d.Proper) fun ds => ∀ d ∈ ds, d.Proper) :=
    .pure fun d hd => hdone d (Array.mem_toList_iff.1 hd)
  refine Yields.atEnd.bind fun b _ => ?_
  cases b with
  | true => exact finished
  | false =>
      refine (Yields.atSymbol _).bind fun b _ => ?_
      cases b with
      | true => exact finished
      | false =>
          refine (callable_yields fuel .method h).bind fun d hd => .pure fun e he => ?_
          rcases Array.mem_push.1 he with he | rfl
          · exact hdone e he
          · exact hd.1

theorem classDeclaration_yields (fuel : Nat) {p : Parser (List (Stmt Unit))}
    (h : Yields P p fun ss => ∀ s ∈ ss, s.Proper) : Yields P (classDeclaration fuel p) Stmt.Proper := by
  refine (Yields.name _).bind fun n hn => superclass_yields.bind fun c hc => ?_
  refine (Yields.symbolBefore _ _).bind fun _ _ => (methods_yields fuel h).bind fun ms hms => ?_
  exact (Yields.symbolAfter _ _).bind fun _ _ => .pure (.classDecl hn hc hms)

theorem statement_declaration_yields (fuel : Nat) :
    Yields P (statement fuel) IsBody ∧ Yields P (declaration fuel) Stmt.Proper := by
  induction fuel with
  | zero => exact ⟨.throw, .throw⟩
  | succ fuel ih =>
      have body := block_yields fuel ih.2.recovering
      refine ⟨?_, ?_⟩
      · refine Yields.remaining.bind fun ts _ => ?_
        cases ts with
        | nil => exact expressionStatement_yields fuel
        | cons t rest =>
            dsimp only
            split
            · exact Yields.advance.bind fun _ _ => forStatement_yields fuel ih.1
            · exact Yields.advance.bind fun _ _ => ifStatement_yields fuel ih.1
            · exact Yields.advance.bind fun _ _ => printStatement_yields fuel
            · exact Yields.advance.bind fun _ _ => returnStatement_yields fuel _
            · exact Yields.advance.bind fun _ _ => whileStatement_yields fuel ih.1
            · exact Yields.advance.bind fun _ _ => body.bind fun b hb => .pure ⟨.block hb, rfl⟩
            · exact expressionStatement_yields fuel
      · refine Yields.nextKind?.bind fun k _ => ?_
        split
        · exact Yields.advance.bind fun _ _ => classDeclaration_yields fuel body
        · refine Yields.advance.bind fun _ _ => ?_
          exact (callable_yields fuel .function body).bind fun d hd => .pure (.function hd.1 hd.2)
        · exact Yields.advance.bind fun _ _ => varDeclaration_yields fuel
        · exact ih.1.mono fun s hs => hs.1

theorem program_yields (fuel : Nat) : Yields P (program fuel) fun ss => ∀ s ∈ ss, s.Proper :=
  declarations_yields fuel false (statement_declaration_yields fuel).2.recovering

end Parser

/-! ## Texts -/

/-- The statements that are read are proper, and every error is at a token of the text or at its end. -/
theorem Stmt.parse_yields {ts : TokenList} (h : ∀ t ∈ ts.tokens, t.Plain) :
    (∀ s ∈ (Stmt.parse ts).value, s.Proper) ∧ ∀ e ∈ (Stmt.parse ts).errors, e.IsAt (· ∈ ts.tokens) := by
  have begun : ParseState.Knows (· ∈ ts.tokens) ⟨ts.tokens, ts.endLine, #[]⟩ := by
    refine ⟨fun t ht => ⟨h t ht, ht⟩, fun e he => ?_⟩
    cases he
  have read := Parser.program_yields ts.fuel _ begun
  unfold Stmt.parse Parser.run
  cases hp : Parser.program ts.fuel ⟨ts.tokens, ts.endLine, #[]⟩ with
  | ok ss s =>
      rw [hp] at read
      cases read with
      | ok knows hss => exact ⟨hss, knows.errors⟩
  | error f s =>
      rw [hp] at read
      cases read with
      | error knows => exact ⟨nofun, knows.errors⟩

theorem Stmt.parse_proper {ts : TokenList} (h : ∀ t ∈ ts.tokens, t.Plain) : ∀ s ∈ (Stmt.parse ts).value, s.Proper :=
  (Stmt.parse_yields h).1

namespace Piece

def Plain (p : Piece) : Prop :=
  ∀ name text, p = .lexeme (.identifier name) text → Keyword.ofText? name = none

theorem wordKind_identifier {word name : String} (h : wordKind word = .identifier name) :
    Keyword.ofText? name = none := by
  unfold wordKind at h
  split at h
  · cases h
  · next hk =>
      cases h
      exact hk

theorem first_plain (c : Char) (rest : List Char) : (first c rest).1.Plain := by
  intro name text h
  unfold first at h
  split at h
  · unfold afterSlash at h
    split at h <;> (try split at h) <;> simp at h
  · split at h
    · unfold afterQuote at h
      split at h <;> simp at h
    · split at h
      · unfold afterDigit at h
        split at h <;> (try split at h) <;> simp at h
      · split at h
        · simp only [afterLetter, lexeme.injEq] at h
          exact wordKind_identifier h.1
        · unfold afterOther at h
          split at h <;> (try split at h) <;> (try split at h) <;> simp at h

end Piece

theorem pieces_plain (cs : List Char) : ∀ p ∈ pieces cs, p.Plain := by
  fun_induction pieces cs with
  | case1 => simp
  | case2 c rest step ih =>
      intro p hp
      rcases List.mem_cons.1 hp with rfl | hp
      · exact Piece.first_plain c rest
      · exact ih p hp

theorem Piece.mem_locate {line : Int} {ps : List Piece} {located : Piece × Int} (h : located ∈ locate line ps) :
    located.1 ∈ ps := by
  induction ps generalizing line with
  | nil => simp [locate] at h
  | cons p ps ih =>
      rcases List.mem_cons.1 h with rfl | h
      · exact List.mem_cons_self
      · exact List.mem_cons_of_mem _ (ih h)

theorem Scan.ofString_plain (source : String) : ∀ t ∈ (Scan.ofString source).list.tokens, t.Plain := by
  intro t ht name hk
  obtain ⟨located, hmem, ht⟩ := List.mem_filterMap.1 ht
  have plain := pieces_plain source.toList located.1 (Piece.mem_locate hmem)
  unfold Piece.token? at ht
  split at ht
  · next kind text hp =>
      cases ht
      exact plain name text (by rw [hp]; exact congrArg (Piece.lexeme · text) hk)
  · cases ht

/-- Every statement that a text gives is proper. -/
theorem Stmt.parse_scan_proper (source : String) :
    ∀ s ∈ (Stmt.parse (Scan.ofString source).list).value, s.Proper :=
  Stmt.parse_proper (Scan.ofString_plain source)

end LoxScript
