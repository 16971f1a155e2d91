import LoxScript.Tree.Parse.Statement

/-!
# Fuel for reading

More fuel changes nothing but that a parser which ran out of it may go on. `Within p q` says that `p` is put together
from the same steps as `q`, where some part of `p` may be cut off for want of fuel. It holds of every parser with itself
and with the same parser on more fuel.
-/

namespace LoxScript

namespace Parser

variable {α β σ : Type}

/-- The parser `p` takes the steps of `q`, up to where it runs out of fuel. -/
inductive Within : {α : Type} → Parser α → Parser α → Prop where
  | outOfFuel {α : Type} (q : Parser α) : Within (throw .outOfFuel) q
  | pure {α : Type} (a : α) : Within (Pure.pure a) (Pure.pure a)
  | bind {α β : Type} {p q : Parser α} {f g : α → Parser β} : Within p q → (∀ a, Within (f a) (g a)) →
      Within (p >>= f) (q >>= g)
  | remaining : Within remaining remaining
  | advance : Within advance advance
  | reportAt (t : Token) (cause : SyntaxError) : Within (reportAt t cause) (reportAt t cause)
  | report (cause : SyntaxError) : Within (report cause) (report cause)
  | reject {α : Type} (cause : SyntaxError) : Within (reject cause : Parser α) (reject cause)
  | recovering {α : Type} {p q : Parser α} : Within p q → Within (recovering p) (recovering q)

namespace Within

variable {p q : Parser α} {e e' : Parser (Expr Unit)} {m n : Nat}

theorem map {f : α → β} (h : Within p q) : Within (f <$> p) (f <$> q) := by
  rw [← bind_pure_comp f p, ← bind_pure_comp f q]
  exact h.bind fun a => pure (f a)

/-! ## Single tokens -/

theorem nextKind? : Within nextKind? nextKind? :=
  remaining.bind fun ts => pure (ts.head?.map Token.kind)

theorem accept? (f : Token → Option α) : Within (accept? f) (accept? f) := by
  refine remaining.bind fun ts => ?_
  cases ts with
  | nil => exact pure none
  | cons t _ =>
      dsimp only
      cases f t with
      | none => exact pure none
      | some a => exact advance.bind fun _ => pure (some a)

theorem symbol? (s : Symbol) : Within (symbol? s) (symbol? s) :=
  accept? _

theorem symbol (s : Symbol) (cause : SyntaxError) : Within (symbol s cause) (symbol s cause) := by
  refine (symbol? s).bind fun o => ?_
  cases o with
  | none => exact reject cause
  | some t => exact pure t

theorem symbolAfter (s : Symbol) (clause : Clause) : Within (symbolAfter s clause) (symbolAfter s clause) :=
  symbol s _

theorem symbolBefore (s : Symbol) (clause : Clause) : Within (symbolBefore s clause) (symbolBefore s clause) :=
  symbol s _

theorem atSymbol (s : Symbol) : Within (atSymbol s) (atSymbol s) :=
  nextKind?.bind fun k => pure (k == some (.symbol s))

theorem atEnd : Within atEnd atEnd :=
  remaining.bind fun ts => pure ts.isEmpty

theorem name (role : NameRole) : Within (name role) (name role) := by
  refine (accept? _).bind fun o => ?_
  cases o with
  | none => exact reject _
  | some x => exact pure x

/-! ## Loops -/

theorem repeating {step step' : σ → Parser (σ ⊕ β)} (h : ∀ a, Within (step a) (step' a)) (hmn : m ≤ n) (a : σ) :
    Within (repeating step m a) (repeating step' n a) := by
  induction m generalizing n a with
  | zero => exact outOfFuel _
  | succ m ih =>
      obtain ⟨n, rfl⟩ : ∃ k, n = k + 1 := ⟨n - 1, by omega⟩
      refine (h a).bind fun x => ?_
      cases x with
      | inl a' => exact ih (by omega) a'
      | inr b => exact pure b

theorem commaSeparated (h : Within p q) (cause : SyntaxError) (hmn : m ≤ n) :
    Within (commaSeparated m p cause) (commaSeparated n q cause) := by
  refine repeating (fun items => ?_) hmn #[]
  dsimp only
  split
  -- An item that is one too many is only reported before it is read.
  case' isTrue => refine (report cause).bind fun _ => ?_
  all_goals
    refine h.bind fun a => (symbol? .comma).bind fun o => ?_
    cases o <;> exact pure _

/-! ## Expressions -/

theorem operand (h : Within e e') : Within (operand e) (operand e') := by
  refine remaining.bind fun ts => ?_
  cases ts with
  | nil => exact reject _
  | cons t _ =>
      dsimp only
      split
      case h_6 =>
        exact advance.bind fun _ => (symbolAfter _ _).bind fun _ => (name _).bind fun _ => pure _
      case h_9 =>
        exact advance.bind fun _ => h.bind fun _ => (symbolAfter _ _).bind fun _ => pure _
      case h_10 => exact reject _
      all_goals exact advance.bind fun _ => pure _

theorem arguments (h : Within e e') (hmn : m ≤ n) : Within (arguments m e) (arguments n e') := by
  refine (atSymbol _).bind fun closed => ?_
  split
  · exact pure []
  · exact commaSeparated h _ hmn

theorem callChain (h : Within e e') (hmn : m ≤ n) : Within (callChain m e) (callChain n e') := by
  refine (operand h).bind (repeating (fun callee => ?_) hmn)
  refine (symbol? .leftParen).bind fun o => ?_
  cases o with
  | some _ =>
      exact (arguments h hmn).bind fun _ => (symbolAfter _ _).bind fun _ => pure _
  | none =>
      refine (symbol? .dot).bind fun o => ?_
      cases o with
      | some _ => exact (name _).bind fun _ => pure _
      | none => exact pure _

theorem signed {c c' : Parser (Expr Unit)} (h : Within e e') (hc : Within c c') :
    Within (signed e c) (signed e' c') := by
  refine (accept? _).bind fun o => ?_
  cases o with
  | some _ => exact h.bind fun _ => pure _
  | none => exact hc

theorem joined (h : Within e e') (hmn : m ≤ n) (level : Level) : Within (joined m level e) (joined n level e') := by
  refine h.bind (repeating (fun left => ?_) hmn)
  refine (accept? _).bind fun o => ?_
  cases o with
  | some _ => exact h.bind fun _ => pure _
  | none => exact pure _

theorem joinedAll (h : Within e e') (hmn : m ≤ n) (levels : List Level) :
    Within (joinedAll m e levels) (joinedAll n e' levels) := by
  induction levels with
  | nil => exact h
  | cons level _ ih => exact joined ih hmn level

theorem assignment {t t' : Parser (Expr Unit)} (h : Within e e') (ht : Within t t') :
    Within (assignment e t) (assignment e' t') := by
  refine ht.bind fun left => (symbol? .equal).bind fun o => ?_
  cases o with
  | none => exact pure left
  | some equals =>
      refine h.bind fun value => ?_
      split
      · exact pure _
      · exact (reportAt _ _).bind fun _ => pure left

theorem expression_unary (hmn : m ≤ n) :
    Within (expression m) (expression n) ∧ Within (unary m) (unary n) := by
  induction m generalizing n with
  | zero => exact ⟨outOfFuel _, outOfFuel _⟩
  | succ m ih =>
      obtain ⟨n, rfl⟩ : ∃ k, n = k + 1 := ⟨n - 1, by omega⟩
      have less : m ≤ n := by omega
      obtain ⟨inner, sign⟩ := ih less
      exact ⟨assignment inner (joinedAll sign less _), signed sign (callChain inner less)⟩

theorem expression (hmn : m ≤ n) : Within (expression m) (expression n) :=
  (expression_unary hmn).1

theorem wholeExpression (hmn : m ≤ n) : Within (wholeExpression m) (wholeExpression n) := by
  refine (expression hmn).bind fun e => atEnd.bind fun ended => ?_
  split
  · exact pure e
  · exact reject _

/-! ## Statements -/

variable {s s' : Parser (Stmt Unit)} {d d' : Parser (Option (Stmt Unit))} {b b' : Parser (List (Stmt Unit))}

theorem keyword? (k : Keyword) : Within
    (Parser.accept? fun t => if t.isKeyword k then some () else none)
    (Parser.accept? fun t => if t.isKeyword k then some () else none) :=
  accept? _

theorem expressionStatement (hmn : m ≤ n) : Within (expressionStatement m) (expressionStatement n) :=
  (expression hmn).bind fun _ => (symbolAfter _ _).bind fun _ => pure _

theorem printStatement (hmn : m ≤ n) : Within (printStatement m) (printStatement n) :=
  (expression hmn).bind fun _ => (symbolAfter _ _).bind fun _ => pure _

theorem varDeclaration (hmn : m ≤ n) : Within (varDeclaration m) (varDeclaration n) := by
  refine (name _).bind fun x => (symbol? _).bind fun o => ?_
  cases o with
  | some _ => exact (map (expression hmn)).bind fun _ => (symbolAfter _ _).bind fun _ => pure _
  | none => exact (pure none).bind fun _ => (symbolAfter _ _).bind fun _ => pure _

theorem expressionUnless (hmn : m ≤ n) (sym : Symbol) : Within (expressionUnless m sym) (expressionUnless n sym) := by
  refine (atSymbol _).bind fun there => ?_
  split
  · exact pure none
  · exact map (expression hmn)

theorem returnStatement (hmn : m ≤ n) (line : Int) : Within (returnStatement m line) (returnStatement n line) :=
  (expressionUnless hmn _).bind fun _ => (symbolAfter _ _).bind fun _ => pure _

theorem ifStatement (hmn : m ≤ n) (h : Within s s') : Within (ifStatement m s) (ifStatement n s') := by
  refine (symbolAfter _ _).bind fun _ => (expression hmn).bind fun _ => (symbolAfter _ _).bind fun _ =>
    h.bind fun _ => (keyword? _).bind fun o => ?_
  cases o with
  | some _ => exact h.bind fun _ => pure _
  | none => exact pure _

theorem whileStatement (hmn : m ≤ n) (h : Within s s') : Within (whileStatement m s) (whileStatement n s') :=
  (symbolAfter _ _).bind fun _ => (expression hmn).bind fun _ => (symbolAfter _ _).bind fun _ =>
    h.bind fun _ => pure _

theorem forInitializer (hmn : m ≤ n) : Within (forInitializer m) (forInitializer n) := by
  refine (symbol? _).bind fun o => ?_
  cases o with
  | some _ => exact pure none
  | none =>
      refine (keyword? _).bind fun o => ?_
      cases o with
      | some _ => exact map (varDeclaration hmn)
      | none => exact map (expressionStatement hmn)

theorem forStatement (hmn : m ≤ n) (h : Within s s') : Within (forStatement m s) (forStatement n s') :=
  (symbolAfter _ _).bind fun _ => (forInitializer hmn).bind fun _ => (expressionUnless hmn _).bind fun _ =>
    (symbolAfter _ _).bind fun _ => (expressionUnless hmn _).bind fun _ => (symbolAfter _ _).bind fun _ =>
      h.bind fun _ => pure _

theorem declarations (hmn : m ≤ n) (stop : Bool) (h : Within d d') :
    Within (declarations m stop d) (declarations n stop d') := by
  refine repeating (fun done => ?_) hmn #[]
  refine atEnd.bind fun ended => (atSymbol _).bind fun brace => ?_
  split
  · exact pure _
  · refine h.bind fun o => ?_
    cases o <;> exact pure _

theorem block (hmn : m ≤ n) (h : Within d d') : Within (block m d) (block n d') :=
  (declarations hmn true h).bind fun _ => (symbolAfter _ _).bind fun _ => pure _

theorem parameters (hmn : m ≤ n) : Within (parameters m) (parameters n) := by
  refine (atSymbol _).bind fun closed => ?_
  split
  · exact pure []
  · exact commaSeparated (name _) _ hmn

theorem callable (hmn : m ≤ n) (kind : CallableKind) (h : Within b b') :
    Within (callable m kind b) (callable n kind b') :=
  (name _).bind fun _ => (symbolAfter _ _).bind fun _ => (parameters hmn).bind fun _ => (symbolAfter _ _).bind fun _ =>
    (symbolBefore _ _).bind fun _ => h.bind fun _ => pure _

theorem superclass : Within superclass superclass := by
  refine (symbol? _).bind fun o => ?_
  cases o with
  | some _ => exact (name _).bind fun _ => pure _
  | none => exact pure none

theorem methods (hmn : m ≤ n) (h : Within b b') : Within (methods m b) (methods n b') := by
  refine repeating (fun done => ?_) hmn #[]
  refine atEnd.bind fun ended => (atSymbol _).bind fun brace => ?_
  split
  · exact pure _
  · exact (callable hmn _ h).bind fun _ => pure _

theorem classDeclaration (hmn : m ≤ n) (h : Within b b') : Within (classDeclaration m b) (classDeclaration n b') :=
  (name _).bind fun _ => superclass.bind fun _ => (symbolBefore _ _).bind fun _ => (methods hmn h).bind fun _ =>
    (symbolAfter _ _).bind fun _ => pure _

theorem statement_declaration (hmn : m ≤ n) :
    Within (statement m) (statement n) ∧ Within (declaration m) (declaration n) := by
  induction m generalizing n with
  | zero => exact ⟨outOfFuel _, outOfFuel _⟩
  | succ m ih =>
      obtain ⟨n, rfl⟩ : ∃ k, n = k + 1 := ⟨n - 1, by omega⟩
      have less : m ≤ n := by omega
      obtain ⟨inner, decl⟩ := ih less
      have body := block less (recovering decl)
      refine ⟨remaining.bind fun ts => ?_, nextKind?.bind fun kind => ?_⟩
      · cases ts with
        | nil => exact expressionStatement less
        | cons t _ =>
            dsimp only
            split
            · exact advance.bind fun _ => forStatement less inner
            · exact advance.bind fun _ => ifStatement less inner
            · exact advance.bind fun _ => printStatement less
            · exact advance.bind fun _ => returnStatement less _
            · exact advance.bind fun _ => whileStatement less inner
            · exact advance.bind fun _ => body.bind fun _ => pure _
            · exact expressionStatement less
      · split
        · exact advance.bind fun _ => classDeclaration less body
        · exact advance.bind fun _ => (callable less _ body).bind fun _ => pure _
        · exact advance.bind fun _ => varDeclaration less
        · exact inner

theorem statement (hmn : m ≤ n) : Within (statement m) (statement n) :=
  (statement_declaration hmn).1

theorem declaration (hmn : m ≤ n) : Within (declaration m) (declaration n) :=
  (statement_declaration hmn).2

theorem program (hmn : m ≤ n) : Within (program m) (program n) :=
  declarations hmn false (recovering (declaration hmn))

end Within

/-! ## What is the same on more fuel -/

/-- The parser has not finished. -/
def RanOut (x : EStateM.Result ParseFailure ParseState α) : Prop :=
  ∃ s, x = .error .outOfFuel s

theorem ranOut_or_eq_of_bind {p q : Parser α} {f g : α → Parser β} {s : ParseState}
    (h : RanOut (p s) ∨ p s = q s) (hf : ∀ a s', RanOut (f a s') ∨ f a s' = g a s') :
    RanOut ((p >>= f) s) ∨ (p >>= f) s = (q >>= g) s := by
  show RanOut (EStateM.bind p f s) ∨ EStateM.bind p f s = EStateM.bind q g s
  unfold EStateM.bind
  rcases h with ⟨s', hp⟩ | same
  · rw [hp]
    exact .inl ⟨s', rfl⟩
  · rw [← same]
    cases p s with
    | ok a s' => exact hf a s'
    | error e s' => exact .inr rfl

/-- A parser that does not run out of fuel gives the same on more fuel. -/
theorem Within.ranOut_or_eq {p q : Parser α} (h : Within p q) (s : ParseState) : RanOut (p s) ∨ p s = q s := by
  induction h generalizing s with
  | outOfFuel => exact .inl ⟨s, rfl⟩
  | bind _ _ ih ihf => exact ranOut_or_eq_of_bind (ih s) ihf
  | @recovering _ p q _ ih =>
      unfold Parser.recovering
      rcases ih s with ⟨s', hp⟩ | same
      · rw [hp]
        exact .inl ⟨s', rfl⟩
      · rw [same]
        exact .inr rfl
  | _ => exact .inr rfl

end Parser

end LoxScript
