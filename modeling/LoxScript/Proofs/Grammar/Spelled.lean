import LoxScript.Tree.Parse.Statement

/-!
# How trees are spelled

`Expr.Spelled r w e` says that the tokens `w`, read as an expression that binds at least as tightly as the rank `r`,
are the tree `e`. `Stmt.Spelled` says the same of statements and declarations; it keeps statements apart to which a
following `else` would belong.
-/

namespace LoxScript

inductive Rank where
  | assignment
  | joined (level : Level)
  | unary
  | call
  | operand
  deriving DecidableEq, Repr

namespace Rank

/-- The rank of the operands between which a level's operators stand, and so on. -/
def tighter : Rank → Rank
  | assignment => joined .disjunction
  | joined .disjunction => joined .conjunction
  | joined .conjunction => joined .equality
  | joined .equality => joined .comparison
  | joined .comparison => joined .term
  | joined .term => joined .factor
  | joined .factor => unary
  | unary => call
  | call => operand
  | operand => operand

def tightness : Rank → Nat
  | assignment => 1
  | joined .disjunction => 2
  | joined .conjunction => 3
  | joined .equality => 4
  | joined .comparison => 5
  | joined .term => 6
  | joined .factor => 7
  | unary => 8
  | call => 9
  | operand => 10

theorem tightness_tighter (r : Rank) : r = .operand ∨ r.tighter.tightness = r.tightness + 1 := by
  cases r with
  | joined level => cases level <;> simp [tighter, tightness]
  | _ => simp [tighter, tightness]

theorem tightness_le_operand (r : Rank) : r.tightness ≤ operand.tightness := by
  cases r with
  | joined level => cases level <;> decide
  | _ => decide

theorem eq_of_tightness_eq {r r' : Rank} (h : r.tightness = r'.tightness) : r = r' := by
  revert h
  cases r with
  | joined l => cases l <;> cases r' with
    | joined l' => cases l' <;> simp [tightness]
    | _ => simp [tightness]
  | _ => cases r' with
    | joined l' => cases l' <;> simp [tightness]
    | _ => simp [tightness]

theorem tightness_joined_lt (l : Level) : (joined l).tightness < (joined l).tighter.tightness := by
  cases l <;> decide

end Rank

/-- The rank of the expressions that a token of this kind goes on with when it stands behind one, as a number;
zero if there are none. -/
def Token.Kind.strength : Token.Kind → Nat
  | .symbol .equal => Rank.assignment.tightness
  | .symbol .leftParen | .symbol .dot => Rank.call.tightness
  | kind =>
      match Join.ofKind? kind with
      | some j => (Rank.joined j.level).tightness
      | none => 0

theorem Token.Kind.strength_join (j : Join) : j.kind.strength = (Rank.joined j.level).tightness := by
  rcases j with op | op <;> cases op <;> rfl

/-- No expression of the rank `r` goes on with these tokens. -/
def Rank.Stops (r : Rank) (rest : List Token) : Prop :=
  ∀ t ∈ rest.head?, t.kind.strength < r.tightness

inductive Commas : List (List Token) → List Token → Prop where
  | nil : Commas [] []
  | one {w} : Commas [w] w
  | cons {w u us t v} : t.kind = .symbol .comma → Commas (u :: us) v → Commas (w :: u :: us) (w ++ t :: v)

namespace Commas

variable {ws : List (List Token)} {w v : List Token}

theorem length_le (h : Commas ws v) (hw : w ∈ ws) : w.length ≤ v.length := by
  induction h with
  | nil => cases hw
  | one =>
      obtain rfl := List.mem_singleton.1 hw
      exact Nat.le_refl _
  | cons _ _ ih =>
      rw [List.length_append, List.length_cons]
      rcases List.mem_cons.1 hw with rfl | hw
      · omega
      · have := ih hw
        omega

/-- There are no more items than tokens, if no item is empty. -/
theorem count_le (h : Commas ws v) (hw : ∀ w ∈ ws, w ≠ []) : ws.length ≤ v.length := by
  induction h with
  | nil => exact Nat.le_refl _
  | one => exact List.length_pos_iff.2 (hw _ List.mem_cons_self)
  | cons _ _ ih =>
      have := ih fun w h => hw w (List.mem_cons_of_mem _ h)
      simp only [List.length_append, List.length_cons] at this ⊢
      omega

theorem head (h : Commas (w :: ws) v) : ∃ u, v = w ++ u := by
  cases h with
  | one => exact ⟨[], (List.append_nil w).symm⟩
  | cons => exact ⟨_, rfl⟩

end Commas

inductive Optionally {α : Type} (P : List Token → α → Prop) : List Token → Option α → Prop where
  | absent : Optionally P [] none
  | present {w a} : P w a → Optionally P w (some a)

def Literal.kind : Literal → Token.Kind
  | .nil => .keyword .nilWord
  | .bool true => .keyword .trueWord
  | .bool false => .keyword .falseWord
  | .number x => .number x
  | .string s => .string s

def Token.Kind.startsExpression : Token.Kind → Bool
  | .identifier _ | .number _ | .string _ => true
  | .keyword .falseWord | .keyword .trueWord | .keyword .nilWord | .keyword .thisWord | .keyword .superWord => true
  | .symbol .leftParen | .symbol .minus | .symbol .bang => true
  | _ => false

theorem Token.kind_of_name? {t : Token} {x : Name} (h : t.name? = some x) :
    t.kind = .identifier x.text ∧ t.line = x.line := by
  unfold Token.name? at h
  split at h
  · next hk =>
      cases h
      exact ⟨hk, rfl⟩
  · cases h

theorem Token.name?_of_kind {t : Token} {text : String} (h : t.kind = .identifier text) :
    t.name? = some ⟨text, t.line⟩ := by
  unfold name?
  rw [h]

theorem Literal.startsExpression_kind (v : Literal) : v.kind.startsExpression = true := by
  cases v with
  | bool b => cases b <;> rfl
  | _ => rfl

/-! ## Expressions -/

namespace Expr

/-- The tokens are the tree, and bind at least as tightly as the rank says. -/
inductive Spelled : Rank → List Token → Expr Unit → Prop where
  | literal {t v} : t.kind = Literal.kind v → Spelled .operand [t] (.literal v)
  | var {t x} : t.name? = some x → Spelled .operand [t] (.var x ())
  | this {t} : t.kind = .keyword .thisWord → Spelled .operand [t] (.this t.line ())
  | super {t d n x} : t.kind = .keyword .superWord → d.kind = .symbol .dot → n.name? = some x →
      Spelled .operand [t, d, n] (.super t.line x ())
  | grouping {l w r e} : l.kind = .symbol .leftParen → Spelled .assignment w e → r.kind = .symbol .rightParen →
      Spelled .operand (l :: (w ++ [r])) (.grouping e)
  | get {w d n x e} : Spelled .call w e → d.kind = .symbol .dot → n.name? = some x →
      Spelled .call (w ++ [d, n]) (.get e x)
  | call {w l v r e} {arguments : List (List Token × Expr Unit)} : Spelled .call w e →
      l.kind = .symbol .leftParen → (∀ a ∈ arguments, Spelled .assignment a.1 a.2) →
      Commas (arguments.map Prod.fst) v → arguments.length ≤ maxArguments → r.kind = .symbol .rightParen →
      Spelled .call (w ++ l :: (v ++ [r])) (.call e r.line (arguments.map Prod.snd))
  | unary {t w e} {op : UnaryOp} : t.kind = .symbol op.symbol → Spelled .unary w e →
      Spelled .unary (t :: w) (.unary op t.line e)
  | join {u t v a b} {j : Join} : Spelled (.joined j.level) u a → t.kind = j.kind →
      Spelled (Rank.joined j.level).tighter v b → Spelled (.joined j.level) (u ++ t :: v) (j.build t.line a b)
  | assign {n q w x e} : n.name? = some x → q.kind = .symbol .equal → Spelled .assignment w e →
      Spelled .assignment (n :: q :: w) (.assign x () e)
  | set {u d n q w x o e} : Spelled .call u o → d.kind = .symbol .dot → n.name? = some x →
      q.kind = .symbol .equal → Spelled .assignment w e →
      Spelled .assignment (u ++ d :: n :: q :: w) (.set o x e)
  | tighter {r w e} : Spelled r.tighter w e → Spelled r w e

namespace Spelled

variable {r : Rank} {w : List Token} {e : Expr Unit}

/-- What binds tightly enough for one place does so for every place that asks for less. -/
theorem loosen {r' : Rank} (h : Spelled r' w e) (hr : r.tightness ≤ r'.tightness) : Spelled r w e := by
  generalize hd : r'.tightness - r.tightness = d
  induction d generalizing r with
  | zero =>
      have same : r = r' := Rank.eq_of_tightness_eq (Nat.le_antisymm hr (by omega))
      exact same ▸ h
  | succ d ih =>
      apply tighter
      rcases r.tightness_tighter with rfl | next
      · have := r'.tightness_le_operand
        omega
      · exact ih (by omega) (by omega)

theorem ne_nil (h : Spelled r w e) : w ≠ [] := by
  induction h with
  | tighter _ ih => exact ih
  | _ => simp

theorem length_pos (h : Spelled r w e) : 1 ≤ w.length :=
  List.length_pos_iff.2 h.ne_nil

theorem starts (h : Spelled r w e) : ∃ t ts, w = t :: ts ∧ t.kind.startsExpression = true := by
  induction h with
  | literal ht => exact ⟨_, _, rfl, by rw [ht]; exact Literal.startsExpression_kind _⟩
  | var ht | assign ht _ _ => exact ⟨_, _, rfl, by rw [(Token.kind_of_name? ht).1]; rfl⟩
  | this ht | super ht _ _ | grouping ht _ _ _ => exact ⟨_, _, rfl, by rw [ht]; rfl⟩
  | @unary _ _ _ op ht => exact ⟨_, _, rfl, by rw [ht]; cases op <;> rfl⟩
  | get _ _ _ ih | call _ _ _ _ _ _ ih _ | join _ _ _ ih _ | set _ _ _ _ _ ih _ =>
      obtain ⟨t, ts, rfl, ht⟩ := ih
      exact ⟨t, _, rfl, ht⟩
  | tighter _ ih => exact ih

/-- An expression does not begin with a token that begins something else. -/
theorem head_ne {k : Token.Kind} (h : Spelled r w e) (hk : k.startsExpression = false) (rest : List Token) :
    ∀ t ∈ (w ++ rest).head?, t.kind ≠ k := by
  obtain ⟨t, ts, rfl, ht⟩ := h.starts
  rintro t' ht' rfl
  cases ht'
  rw [ht] at hk
  cases hk

/-- A variable is a single token. -/
theorem of_var {x : Name} (h : Spelled r w (.var x ())) : ∃ t, w = [t] ∧ t.name? = some x := by
  generalize he : Expr.var x () = e at h
  induction h with
  | var hx =>
      cases he
      exact ⟨_, rfl, hx⟩
  | tighter _ ih => exact ih he
  | @join _ _ _ _ _ j => cases j <;> cases he
  | _ => cases he

/-- A property access ends with the name of the property. -/
theorem of_get {o : Expr Unit} {x : Name} (h : Spelled r w (.get o x)) :
    ∃ u d n, w = u ++ [d, n] ∧ Spelled .call u o ∧ d.kind = .symbol .dot ∧ n.name? = some x := by
  generalize he : Expr.get o x = e at h
  induction h with
  | get ho hd hn =>
      cases he
      exact ⟨_, _, _, rfl, ho, hd, hn⟩
  | tighter _ ih => exact ih he
  | @join _ _ _ _ _ j => cases j <;> cases he
  | _ => cases he

end Spelled

end Expr

/-! ## Statements and declarations -/

structure CallableText where
  /-- The tokens up to the opening brace of the body. -/
  header : List Token
  name : Name
  params : List Name
  body : List (List Token × Stmt Unit)
  close : Token

namespace CallableText

def tokens (m : CallableText) : List Token :=
  m.header ++ ((m.body.map Prod.fst).flatten ++ [m.close])

def decl (m : CallableText) : FunctionDecl Unit :=
  .mk m.name m.params (m.body.map Prod.snd)

/-- A name, at most `maxArguments` parameters between parentheses, and an opening brace. -/
inductive Header : List Token → Name → List Name → Prop where
  | mk {n x l v r b} {params : List (List Token × Name)} : n.name? = some x → l.kind = .symbol .leftParen →
      (∀ p ∈ params, ∃ t, p.1 = [t] ∧ t.name? = some p.2) → Commas (params.map Prod.fst) v →
      params.length ≤ maxArguments → r.kind = .symbol .rightParen → b.kind = .symbol .leftBrace →
      Header (n :: l :: (v ++ [r, b])) x (params.map Prod.snd)

structure Framed (m : CallableText) : Prop where
  header : Header m.header m.name m.params
  close : m.close.kind = .symbol .rightBrace

end CallableText

inductive SuperclassSpelled : List Token → Option (Name × Unit) → Prop where
  | absent : SuperclassSpelled [] none
  | present {s n x} : s.kind = .symbol .less → n.name? = some x → SuperclassSpelled [s, n] (some (x, ()))

inductive VarSpelled : List Token → Stmt Unit → Prop where
  | plain {n x s} : n.name? = some x → s.kind = .symbol .semicolon → VarSpelled [n, s] (.var x none)
  | initialized {n x q w e s} : n.name? = some x → q.kind = .symbol .equal → Expr.Spelled .assignment w e →
      s.kind = .symbol .semicolon → VarSpelled (n :: q :: (w ++ [s])) (.var x (some e))

inductive InitializerSpelled : List Token → Option (Stmt Unit) → Prop where
  | absent {s} : s.kind = .symbol .semicolon → InitializerSpelled [s] none
  | var {t w i} : t.kind = .keyword .varWord → VarSpelled w i → InitializerSpelled (t :: w) (some i)
  | expression {w e s} : Expr.Spelled .assignment w e → s.kind = .symbol .semicolon →
      InitializerSpelled (w ++ [s]) (some (.expression e))

def NoElse (rest : List Token) : Prop :=
  ∀ t ∈ rest.head?, t.kind ≠ .keyword .elseWord

namespace Stmt

/-- What a text is read as: a statement, which ends with an `if` without `else` when it is dangling, or anything
that may stand in a block. -/
inductive Form where
  | statement (dangling : Bool)
  | declaration
  deriving DecidableEq, Repr

/-- The tokens are the tree. An `else` belongs to the last `if` that it can belong to. -/
inductive Spelled : Form → List Token → Stmt Unit → Prop where
  | expression {w e s} : Expr.Spelled .assignment w e → s.kind = .symbol .semicolon →
      Spelled (.statement false) (w ++ [s]) (.expression e)
  | print {p w e s} : p.kind = .keyword .printWord → Expr.Spelled .assignment w e →
      s.kind = .symbol .semicolon → Spelled (.statement false) (p :: (w ++ [s])) (.print e)
  | ret {t w o s} : t.kind = .keyword .returnWord → Optionally (Expr.Spelled .assignment) w o →
      s.kind = .symbol .semicolon → Spelled (.statement false) (t :: (w ++ [s])) (.ret t.line o)
  | block {l r} {body : List (List Token × Stmt Unit)} : l.kind = .symbol .leftBrace →
      (∀ p ∈ body, Spelled .declaration p.1 p.2) → r.kind = .symbol .rightBrace →
      Spelled (.statement false) (l :: ((body.map Prod.fst).flatten ++ [r])) (.block (body.map Prod.snd))
  | loop {t l w c r v s dangling} : t.kind = .keyword .whileWord → l.kind = .symbol .leftParen →
      Expr.Spelled .assignment w c → r.kind = .symbol .rightParen → Spelled (.statement dangling) v s →
      Spelled (.statement dangling) (t :: l :: (w ++ r :: v)) (.loop c s)
  | forLoop {t l w₁ i w₂ c q w₃ n r v s dangling} : t.kind = .keyword .forWord →
      l.kind = .symbol .leftParen → InitializerSpelled w₁ i → Optionally (Expr.Spelled .assignment) w₂ c →
      q.kind = .symbol .semicolon → Optionally (Expr.Spelled .assignment) w₃ n →
      r.kind = .symbol .rightParen → Spelled (.statement dangling) v s →
      Spelled (.statement dangling) (t :: l :: (w₁ ++ (w₂ ++ q :: (w₃ ++ r :: v)))) (Stmt.forLoop i c n s)
  | ite {t l w c r v s dangling} : t.kind = .keyword .ifWord → l.kind = .symbol .leftParen →
      Expr.Spelled .assignment w c → r.kind = .symbol .rightParen → Spelled (.statement dangling) v s →
      Spelled (.statement true) (t :: l :: (w ++ r :: v)) (.ite c s none)
  | iteElse {t l w c r v s q u s' dangling} : t.kind = .keyword .ifWord → l.kind = .symbol .leftParen →
      Expr.Spelled .assignment w c → r.kind = .symbol .rightParen → Spelled (.statement false) v s →
      q.kind = .keyword .elseWord → Spelled (.statement dangling) u s' →
      Spelled (.statement dangling) (t :: l :: (w ++ r :: (v ++ q :: u))) (.ite c s (some s'))
  | var {t w s} : t.kind = .keyword .varWord → VarSpelled w s → Spelled .declaration (t :: w) s
  | function {t} {m : CallableText} : t.kind = .keyword .funWord → m.Framed →
      (∀ p ∈ m.body, Spelled .declaration p.1 p.2) → Spelled .declaration (t :: m.tokens) (.function m.decl)
  | classDecl {t n x w o l r} {methods : List CallableText} : t.kind = .keyword .classWord →
      n.name? = some x → SuperclassSpelled w o → l.kind = .symbol .leftBrace → (∀ m ∈ methods, m.Framed) →
      (∀ m ∈ methods, ∀ p ∈ m.body, Spelled .declaration p.1 p.2) → r.kind = .symbol .rightBrace →
      Spelled .declaration (t :: n :: (w ++ l :: ((methods.map CallableText.tokens).flatten ++ [r])))
        (.classDecl x o (methods.map CallableText.decl))
  | statement {w s dangling} : Spelled (.statement dangling) w s → Spelled .declaration w s

/-- A declaration begins neither with `else` nor with the end of a block. -/
theorem Spelled.head {form : Form} {w : List Token} {s : Stmt Unit} (h : Spelled form w s) :
    ∃ t ts, w = t :: ts ∧ t.kind ≠ .keyword .elseWord ∧ t.kind ≠ .symbol .rightBrace := by
  induction h with
  | expression he _ =>
      obtain ⟨t, ts, rfl, ht⟩ := he.starts
      refine ⟨t, _, rfl, ?_, ?_⟩ <;>
        · intro hk
          rw [hk] at ht
          cases ht
  | print ht _ _ | ret ht _ _ | block ht _ _ _ | loop ht _ _ _ _ _ | forLoop ht _ _ _ _ _ _ _ _ | ite ht _ _ _ _ _
  | iteElse ht _ _ _ _ _ _ _ _ | var ht _ | function ht _ _ _ | classDecl ht _ _ _ _ _ _ _ =>
      exact ⟨_, _, rfl, by simp [ht], by simp [ht]⟩
  | statement _ ih => exact ih

def declarationWords : List Keyword :=
  [.classWord, .funWord, .varWord]

/-- No statement begins like another declaration. -/
theorem Spelled.statement_head {dangling : Bool} {w : List Token} {s : Stmt Unit}
    (h : Spelled (.statement dangling) w s) :
    ∃ t ts, w = t :: ts ∧ ∀ k ∈ declarationWords, t.kind ≠ .keyword k := by
  cases h with
  | expression he _ =>
      obtain ⟨t, ts, rfl, ht⟩ := he.starts
      have other : ∀ k ∈ declarationWords, (Token.Kind.keyword k).startsExpression = false := by decide
      refine ⟨t, _, rfl, fun k hk same => ?_⟩
      rw [same, other k hk] at ht
      cases ht
  | print ht _ _ | ret ht _ _ | block ht _ _ | loop ht _ _ _ _ | forLoop ht _ _ _ _ _ _ _ | ite ht _ _ _ _
  | iteElse ht _ _ _ _ _ _ =>
      exact ⟨_, _, rfl, by simp [ht, declarationWords]⟩

theorem Spelled.ne_nil {form : Form} {w : List Token} {s : Stmt Unit} (h : Spelled form w s) : w ≠ [] := by
  obtain ⟨t, ts, rfl, _⟩ := h.head
  exact List.cons_ne_nil t ts

/-- What comes before a declaration does not go on with an `else`. -/
theorem Spelled.noElse {form : Form} {w : List Token} {s : Stmt Unit} (h : Spelled form w s) (rest : List Token) :
    NoElse (w ++ rest) := by
  obtain ⟨t, ts, rfl, ht, _⟩ := h.head
  intro t' ht'
  cases ht'
  exact ht

end Stmt

theorem CallableText.tokens_ne_nil (m : CallableText) : m.tokens ≠ [] := by
  simp [tokens]

/-- A method begins with its name. -/
theorem CallableText.Framed.head_ne {m : CallableText} (h : m.Framed) (rest : List Token) :
    ∀ t ∈ (m.tokens ++ rest).head?, t.kind ≠ .symbol .rightBrace := by
  obtain ⟨header, name, params, body, close⟩ := m
  obtain ⟨⟨hn, _⟩, _⟩ := h
  intro t ht
  cases ht
  simp [(Token.kind_of_name? hn).1]

def Stmts.Spelled (w : List Token) (ss : List (Stmt Unit)) : Prop :=
  ∃ parts : List (List Token × Stmt Unit), (∀ p ∈ parts, Stmt.Spelled .declaration p.1 p.2) ∧
    w = (parts.map Prod.fst).flatten ∧ ss = parts.map Prod.snd

end LoxScript
