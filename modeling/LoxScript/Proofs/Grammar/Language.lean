import LoxScript.Proofs.Grammar.Complete
import LoxScript.Proofs.Grammar.Derived
import LoxScript.Proofs.Grammar.Sound

/-!
# The language of the parser

Whatever the grammar derives spells a tree, so the parser accepts exactly what the grammar derives. The grammar does
not say to which `if` an `else` belongs; the tree that is spelled gives it to the last one that can take it.
-/

namespace LoxScript

open Grammar

/-- Parts that each satisfy something come from values that do. -/
theorem exists_map_eq {α β : Type} {f : α → β} {P : α → Prop} {ws : List β} (h : ∀ w ∈ ws, ∃ a, f a = w ∧ P a) :
    ∃ parts : List α, parts.map f = ws ∧ ∀ a ∈ parts, P a := by
  induction ws with
  | nil => exact ⟨[], rfl, by simp⟩
  | cons w ws ih =>
      obtain ⟨a, rfl, ha⟩ := h w List.mem_cons_self
      obtain ⟨parts, rfl, hparts⟩ := ih fun u hu => h u (List.mem_cons_of_mem _ hu)
      exact ⟨a :: parts, rfl, List.forall_mem_cons.2 ⟨ha, hparts⟩⟩

theorem exists_parts {α : Type} {P : List Token → α → Prop} {ws : List (List Token)} (h : ∀ w ∈ ws, ∃ a, P w a) :
    ∃ parts : List (List Token × α), parts.map Prod.fst = ws ∧ ∀ x ∈ parts, P x.1 x.2 :=
  exists_map_eq fun w hw => (h w hw).elim fun a ha => ⟨(w, a), rfl, ha⟩

namespace Expr.Spelled

variable {u w : List Token} {e : Expr Unit}

/-- Operands that follow one another group to the left. -/
theorem chain {l : Level} {ws : List (List Token)} (h : Spelled (.joined l) u e)
    (hws : ∀ w ∈ ws, ∃ (t : Token) (v : List Token) (b : Expr Unit) (j : Join), w = t :: v ∧ t.kind = j.kind ∧
      j.level = l ∧ b.Spelled (Rank.joined l).tighter v) :
    ∃ e', Spelled (.joined l) (u ++ ws.flatten) e' := by
  induction ws generalizing u e with
  | nil => exact ⟨e, by simpa using h⟩
  | cons w ws ih =>
      obtain ⟨t, v, b, j, rfl, ht, rfl, hb⟩ := hws w List.mem_cons_self
      obtain ⟨e', he'⟩ := ih (.join h ht hb) fun w hw => hws w (List.mem_cons_of_mem _ hw)
      exact ⟨e', by simpa using he'⟩

inductive Link : List Token → Prop where
  | get {d n x} : d.kind = .symbol .dot → n.name? = some x → Link [d, n]
  | call {l v r} {arguments : List (List Token × Expr Unit)} : l.kind = .symbol .leftParen →
      (∀ a ∈ arguments, a.2.Spelled .assignment a.1) → Commas (arguments.map Prod.fst) v →
      arguments.length ≤ maxArguments → r.kind = .symbol .rightParen → Link (l :: (v ++ [r]))

theorem links {ws : List (List Token)} (h : Spelled .call u e) (hws : ∀ w ∈ ws, Link w) :
    ∃ e', Spelled .call (u ++ ws.flatten) e' := by
  induction ws generalizing u e with
  | nil => exact ⟨e, by simpa using h⟩
  | cons w ws ih =>
      have longer : ∃ e', Spelled .call (u ++ w) e' := by
        cases hws w List.mem_cons_self with
        | get hd hn => exact ⟨_, h.get hd hn⟩
        | call hl ha commas few hr => exact ⟨_, h.call hl ha commas few hr⟩
      obtain ⟨e', he'⟩ := longer
      obtain ⟨e'', he''⟩ := ih he' fun w hw => hws w (List.mem_cons_of_mem _ hw)
      exact ⟨e'', by simpa using he''⟩

end Expr.Spelled

/-- An `else` behind a statement that ends with an `if` belongs to the last `if` in it that has none. -/
theorem Stmt.Spelled.absorb {form : Form} {w u : List Token} {s s' : Stmt Unit} {q : Token} {dangling : Bool}
    (h : s.Spelled form w) (hform : form = .statement true) (hq : q.kind = .keyword .elseWord)
    (h' : s'.Spelled (.statement dangling) u) : ∃ d t, Stmt.Spelled (.statement d) (w ++ q :: u) t := by
  induction h with
  | @loop t l w c r v s dangling ht hl hc hr hs ih =>
      obtain ⟨d, s'', hs''⟩ := ih hform
      exact ⟨d, _, by simpa using Stmt.Spelled.loop ht hl hc hr hs''⟩
  | forLoop ht hl hi hc hsemi hn hr hs ih =>
      obtain ⟨d, s'', hs''⟩ := ih hform
      exact ⟨d, _, by simpa using Stmt.Spelled.forLoop ht hl hi hc hsemi hn hr hs''⟩
  | @ite t l w c r v s inner ht hl hc hr hs ih =>
      cases inner with
      | false => exact ⟨_, _, by simpa using Stmt.Spelled.iteElse ht hl hc hr hs hq h'⟩
      | true =>
          obtain ⟨d, s'', hs''⟩ := ih rfl
          exact ⟨true, _, by simpa using Stmt.Spelled.ite ht hl hc hr hs''⟩
  | iteElse ht hl hc hr hs hq' hs' _ ih =>
      obtain ⟨d, s'', hs''⟩ := ih hform
      exact ⟨d, _, by simpa using Stmt.Spelled.iteElse ht hl hc hr hs hq' hs''⟩
  | _ => cases hform

def Grammar.Rule.Spells : Rule → List Token → Prop
  | program, w => ∃ ss, Stmts.Spelled w ss
  | declaration, w | classDecl, w | funDecl, w => ∃ s, Stmt.Spelled .declaration w s
  | function, w =>
      ∃ m : CallableText, m.tokens = w ∧ m.Framed ∧ ∀ p ∈ m.body, p.2.Spelled .declaration p.1
  | parameters, w =>
      ∃ params : List (List Token × Name), Commas (params.map Prod.fst) w ∧ params.length ≤ maxArguments ∧
        ∀ p ∈ params, ∃ t, p.1 = [t] ∧ t.name? = some p.2
  | varDecl, w => ∃ t u s, w = t :: u ∧ t.kind = .keyword .varWord ∧ VarSpelled u s
  | exprStmt, w => ∃ u e q, w = u ++ [q] ∧ Expr.Spelled .assignment u e ∧ q.kind = .symbol .semicolon
  | block, w =>
      ∃ (l r : Token) (body : List (List Token × Stmt Unit)), w = l :: ((body.map Prod.fst).flatten ++ [r]) ∧
        l.kind = .symbol .leftBrace ∧ r.kind = .symbol .rightBrace ∧ ∀ p ∈ body, p.2.Spelled .declaration p.1
  | statement, w | forStmt, w | ifStmt, w | printStmt, w | returnStmt, w | whileStmt, w =>
      ∃ dangling s, Stmt.Spelled (.statement dangling) w s
  | expression, w | assignment, w => ∃ e, Expr.Spelled .assignment w e
  | or, w => ∃ e, Expr.Spelled (.joined .disjunction) w e
  | and, w => ∃ e, Expr.Spelled (.joined .conjunction) w e
  | equality, w => ∃ e, Expr.Spelled (.joined .equality) w e
  | comparison, w => ∃ e, Expr.Spelled (.joined .comparison) w e
  | term, w => ∃ e, Expr.Spelled (.joined .term) w e
  | factor, w => ∃ e, Expr.Spelled (.joined .factor) w e
  | unary, w => ∃ e, Expr.Spelled .unary w e
  | call, w => ∃ e, Expr.Spelled .call w e
  | arguments, w =>
      ∃ arguments : List (List Token × Expr Unit), Commas (arguments.map Prod.fst) w ∧
        arguments.length ≤ maxArguments ∧ ∀ a ∈ arguments, a.2.Spelled .assignment a.1
  | primary, w => ∃ e, Expr.Spelled .operand w e

namespace Grammar

open Rule

variable {w : List Token}

/-- What spells an expression may be left out. -/
theorem optionally_of_means (h : (Phrase.optional (.rule .expression)).Means Spells w) :
    ∃ o, Optionally (Expr.Spelled .assignment) w o := by
  rcases h with rfl | ⟨e, he⟩
  · exact ⟨_, .absent⟩
  · exact ⟨_, .present he⟩

/-- A list of parts that may be left out. -/
theorem listed_of_means {α : Type} {P : List Token × α → Prop} {r : Rule}
    (hr : r.Spells w → ∃ parts : List (List Token × α), Commas (parts.map Prod.fst) w ∧
      parts.length ≤ maxArguments ∧ ∀ p ∈ parts, P p)
    (h : (Phrase.optional (.rule r)).Means Spells w) :
    ∃ parts : List (List Token × α), Commas (parts.map Prod.fst) w ∧ parts.length ≤ maxArguments ∧
      ∀ p ∈ parts, P p := by
  rcases h with rfl | h
  · exact ⟨[], .nil, Nat.zero_le _, by simp⟩
  · exact hr h

theorem operator_of_means {l : Level} (h : l.operators.Means Spells w) :
    ∃ (t : Token) (j : Join), w = [t] ∧ t.kind = j.kind ∧ j.level = l := by
  cases l with
  | disjunction =>
      obtain ⟨t, rfl, ht⟩ := h
      exact ⟨t, .logical .or, rfl, ht, rfl⟩
  | conjunction =>
      obtain ⟨t, rfl, ht⟩ := h
      exact ⟨t, .logical .and, rfl, ht, rfl⟩
  | equality =>
      rcases h with ⟨t, rfl, ht⟩ | ⟨t, rfl, ht⟩
      · exact ⟨t, .binary .notEqual, rfl, ht, rfl⟩
      · exact ⟨t, .binary .equal, rfl, ht, rfl⟩
  | comparison =>
      rcases h with ((⟨t, rfl, ht⟩ | ⟨t, rfl, ht⟩) | ⟨t, rfl, ht⟩) | ⟨t, rfl, ht⟩
      · exact ⟨t, .binary .greater, rfl, ht, rfl⟩
      · exact ⟨t, .binary .greaterEqual, rfl, ht, rfl⟩
      · exact ⟨t, .binary .less, rfl, ht, rfl⟩
      · exact ⟨t, .binary .lessEqual, rfl, ht, rfl⟩
  | term =>
      rcases h with ⟨t, rfl, ht⟩ | ⟨t, rfl, ht⟩
      · exact ⟨t, .binary .minus, rfl, ht, rfl⟩
      · exact ⟨t, .binary .plus, rfl, ht, rfl⟩
  | factor =>
      rcases h with ⟨t, rfl, ht⟩ | ⟨t, rfl, ht⟩
      · exact ⟨t, .binary .slash, rfl, ht, rfl⟩
      · exact ⟨t, .binary .star, rfl, ht, rfl⟩

/-- The texts of one level of two-sided operators. -/
theorem joined_of_means {l : Level} {operand : Phrase}
    (h : (Phrase.chain operand l.operators).Means Spells w)
    (hoperand : ∀ u, operand.Means Spells u → ∃ e, Expr.Spelled (Rank.joined l).tighter u e) :
    ∃ e, Expr.Spelled (.joined l) w e := by
  obtain ⟨u, _, rfl, hu, ws, rfl, hws⟩ := h
  obtain ⟨e, he⟩ := hoperand u hu
  refine Expr.Spelled.chain (.tighter he) fun w hw => ?_
  obtain ⟨_, v, rfl, ht, hv⟩ := hws w hw
  obtain ⟨t, j, rfl, ht, hj⟩ := operator_of_means ht
  obtain ⟨b, hb⟩ := hoperand v hv
  exact ⟨t, v, b, j, rfl, ht, hj, hb⟩

theorem primary_of_means (h : primary.body.Means Spells w) : primary.Spells w := by
  rcases h with (((((((⟨t, rfl, ht⟩ | ⟨t, rfl, ht⟩) | ⟨t, rfl, ht⟩) | ⟨t, rfl, x, ht⟩) | ⟨t, rfl, x, ht⟩) | h) |
    ⟨t, rfl, x, ht⟩) | ⟨t, rfl, ht⟩) | h
  · exact ⟨_, .literal (v := .bool true) ht⟩
  · exact ⟨_, .literal (v := .bool false) ht⟩
  · exact ⟨_, .literal (v := .nil) ht⟩
  · exact ⟨_, .literal (v := .number x) ht⟩
  · exact ⟨_, .literal (v := .string x) ht⟩
  · obtain ⟨_, _, rfl, ⟨_, v, rfl, ⟨l, rfl, hl⟩, e, he⟩, r, rfl, hr⟩ := h
    exact ⟨_, .grouping hl he hr⟩
  · exact ⟨_, .var (Token.name?_of_kind ht)⟩
  · exact ⟨_, .this ht⟩
  · obtain ⟨_, _, rfl, ⟨_, _, rfl, ⟨t, rfl, ht⟩, d, rfl, hd⟩, n, rfl, x, hn⟩ := h
    exact ⟨_, .super ht hd (Token.name?_of_kind hn)⟩

theorem call_of_means (h : call.body.Means Spells w) : call.Spells w := by
  obtain ⟨u, _, rfl, ⟨e, he⟩, ws, rfl, hws⟩ := h
  refine Expr.Spelled.links (.tighter he) fun w hw => ?_
  rcases hws w hw with ⟨_, _, rfl, ⟨_, v, rfl, ⟨l, rfl, hl⟩, hv⟩, r, rfl, hr⟩ | ⟨_, _, rfl, ⟨d, rfl, hd⟩, n, rfl, x, hn⟩
  · obtain ⟨arguments, commas, few, ha⟩ := listed_of_means (r := .arguments) id hv
    exact .call hl ha commas few hr
  · exact .get hd (Token.name?_of_kind hn)

theorem unary_of_means (h : unary.body.Means Spells w) : unary.Spells w := by
  rcases h with ⟨u, v, rfl, sign, e, he⟩ | ⟨e, he⟩
  · have signed : ∃ (t : Token) (op : UnaryOp), u = [t] ∧ t.kind = .symbol op.symbol := by
      rcases sign with ⟨t, rfl, ht⟩ | ⟨t, rfl, ht⟩
      · exact ⟨t, .not, rfl, ht⟩
      · exact ⟨t, .negate, rfl, ht⟩
    obtain ⟨t, op, rfl, ht⟩ := signed
    exact ⟨_, .unary ht he⟩
  · exact ⟨e, .tighter he⟩

theorem assignment_of_means (h : assignment.body.Means Spells w) : assignment.Spells w := by
  rcases h with ⟨_, v, rfl, ⟨_, _, rfl, ⟨_, _, rfl, target, n, rfl, x, hn⟩, q, rfl, hq⟩, e, he⟩ | ⟨e, he⟩
  · rcases target with rfl | ⟨u, _, rfl, ⟨o, ho⟩, d, rfl, hd⟩
    · exact ⟨_, .assign (Token.name?_of_kind hn) hq he⟩
    · exact ⟨_, by simpa using Expr.Spelled.set ho hd (Token.name?_of_kind hn) hq he⟩
  · exact ⟨e, .tighter he⟩

theorem varDecl_of_means (h : varDecl.body.Means Spells w) : varDecl.Spells w := by
  obtain ⟨_, _, rfl, ⟨_, _, rfl, ⟨_, _, rfl, ⟨t, rfl, ht⟩, n, rfl, x, hn⟩, value⟩, q, rfl, hq⟩ := h
  rcases value with rfl | ⟨_, v, rfl, ⟨p, rfl, hp⟩, e, he⟩
  · exact ⟨t, _, _, rfl, ht, .plain (Token.name?_of_kind hn) hq⟩
  · exact ⟨t, _, _, by simp, ht, .initialized (Token.name?_of_kind hn) hp he hq⟩

theorem initializer_of_means (h : (.rule varDecl ||| .rule exprStmt ||| .sign .semicolon : Phrase).Means Spells w) :
    ∃ i, InitializerSpelled w i := by
  rcases h with (⟨t, u, s, rfl, ht, hs⟩ | ⟨u, e, q, rfl, he, hq⟩) | ⟨q, rfl, hq⟩
  · exact ⟨_, .var ht hs⟩
  · exact ⟨_, .expression he hq⟩
  · exact ⟨_, .absent hq⟩

theorem forStmt_of_means (h : forStmt.body.Means Spells w) : forStmt.Spells w := by
  obtain ⟨_, v, rfl, ⟨_, _, rfl, ⟨_, w₃, rfl, ⟨_, _, rfl, ⟨_, w₂, rfl, ⟨_, w₁, rfl, ⟨_, _, rfl, ⟨t, rfl, ht⟩,
    l, rfl, hl⟩, first⟩, condition⟩, q, rfl, hq⟩, increment⟩, r, rfl, hr⟩, dangling, s, hs⟩ := h
  obtain ⟨i, hi⟩ := initializer_of_means first
  obtain ⟨c, hc⟩ := optionally_of_means condition
  obtain ⟨n, hn⟩ := optionally_of_means increment
  exact ⟨dangling, _, by simpa using Stmt.Spelled.forLoop ht hl hi hc hq hn hr hs⟩

theorem ifStmt_of_means (h : ifStmt.body.Means Spells w) : ifStmt.Spells w := by
  obtain ⟨_, _, rfl, ⟨_, v, rfl, ⟨_, _, rfl, ⟨_, u, rfl, ⟨_, _, rfl, ⟨t, rfl, ht⟩, l, rfl, hl⟩, c, hc⟩, r, rfl, hr⟩,
    dangling, s, hs⟩, other⟩ := h
  rcases other with rfl | ⟨_, u', rfl, ⟨q, rfl, hq⟩, dangling', s', hs'⟩
  · exact ⟨true, _, by simpa using Stmt.Spelled.ite ht hl hc hr hs⟩
  · cases dangling with
    | false => exact ⟨dangling', _, by simpa using Stmt.Spelled.iteElse ht hl hc hr hs hq hs'⟩
    | true =>
        obtain ⟨d, s'', hs''⟩ := hs.absorb rfl hq hs'
        exact ⟨true, _, by simpa using Stmt.Spelled.ite ht hl hc hr hs''⟩

theorem whileStmt_of_means (h : whileStmt.body.Means Spells w) : whileStmt.Spells w := by
  obtain ⟨_, v, rfl, ⟨_, _, rfl, ⟨_, u, rfl, ⟨_, _, rfl, ⟨t, rfl, ht⟩, l, rfl, hl⟩, c, hc⟩, r, rfl, hr⟩,
    dangling, s, hs⟩ := h
  exact ⟨dangling, _, by simpa using Stmt.Spelled.loop ht hl hc hr hs⟩

theorem block_of_means (h : block.body.Means Spells w) : block.Spells w := by
  obtain ⟨_, _, rfl, ⟨_, _, rfl, ⟨l, rfl, hl⟩, ws, rfl, hws⟩, r, rfl, hr⟩ := h
  obtain ⟨body, rfl, hbody⟩ := exists_parts hws
  exact ⟨l, r, body, by simp, hl, hr, hbody⟩

theorem statement_of_means (h : statement.body.Means Spells w) : statement.Spells w := by
  rcases h with (((((⟨u, e, q, rfl, he, hq⟩ | h) | h) | h) | h) | h) | ⟨l, r, body, rfl, hl, hr, hbody⟩
  · exact ⟨false, _, .expression he hq⟩
  · exact h
  · exact h
  · exact h
  · exact h
  · exact h
  · exact ⟨false, _, .block hl hbody hr⟩

theorem parameters_of_means (h : parameters.body.Means Spells w) : parameters.Spells w := by
  obtain ⟨ws, commas, _, few, hws⟩ := h
  have named : ∀ u ∈ ws, ∃ x : Name, ∃ t, u = [t] ∧ Token.name? t = some x := by
    intro u hu
    obtain ⟨t, rfl, text, ht⟩ := hws u hu
    exact ⟨_, t, rfl, Token.name?_of_kind ht⟩
  obtain ⟨params, rfl, hparams⟩ := exists_parts named
  exact ⟨params, commas, by simpa using few, hparams⟩

theorem arguments_of_means (h : arguments.body.Means Spells w) : arguments.Spells w := by
  obtain ⟨ws, commas, _, few, hws⟩ := h
  obtain ⟨parts, rfl, hparts⟩ := exists_parts hws
  exact ⟨parts, commas, by simpa using few, hparts⟩

theorem function_of_means (h : function.body.Means Spells w) : function.Spells w := by
  obtain ⟨_, _, rfl, ⟨_, _, rfl, ⟨_, v, rfl, ⟨_, _, rfl, ⟨n, rfl, x, hn⟩, l, rfl, hl⟩, hv⟩, r, rfl, hr⟩,
    b, c, body, rfl, hb, hc, hbody⟩ := h
  obtain ⟨params, commas, few, hparams⟩ := listed_of_means (r := .parameters) id hv
  have header : CallableText.Header (n :: l :: (v ++ [r, b])) _ _ :=
    .mk (Token.name?_of_kind hn) hl hparams commas few hr hb
  exact ⟨⟨_, _, _, body, c⟩, by simp [CallableText.tokens], ⟨header, hc⟩, hbody⟩

theorem classDecl_of_means (h : classDecl.body.Means Spells w) : classDecl.Spells w := by
  obtain ⟨_, _, rfl, ⟨_, _, rfl, ⟨_, _, rfl, ⟨_, v, rfl, ⟨_, _, rfl, ⟨t, rfl, ht⟩, n, rfl, x, hn⟩, super⟩, l, rfl, hl⟩,
    ws, rfl, hws⟩, r, rfl, hr⟩ := h
  obtain ⟨methods, rfl, hmethods⟩ := exists_map_eq hws
  have superclass : ∃ o, SuperclassSpelled v o := by
    rcases super with rfl | ⟨_, _, rfl, ⟨s, rfl, hs⟩, m, rfl, y, hm⟩
    · exact ⟨_, .absent⟩
    · exact ⟨_, .present hs (Token.name?_of_kind hm)⟩
  obtain ⟨o, ho⟩ := superclass
  have whole := Stmt.Spelled.classDecl ht (Token.name?_of_kind hn) ho hl (fun m hm => (hmethods m hm).1)
    (fun m hm => (hmethods m hm).2) hr
  exact ⟨_, by simpa using whole⟩

/-- The texts that spell trees respect every rule. -/
theorem spells_of_means (r : Rule) (w : List Token) (h : r.body.Means Spells w) : r.Spells w := by
  cases r with
  | program =>
      obtain ⟨ws, rfl, hws⟩ := h
      obtain ⟨parts, rfl, hparts⟩ := exists_parts hws
      exact ⟨_, parts, hparts, rfl, rfl⟩
  | declaration =>
      rcases h with ((h | h) | ⟨t, u, s, rfl, ht, hs⟩) | ⟨dangling, s, hs⟩
      · exact h
      · exact h
      · exact ⟨s, .var ht hs⟩
      · exact ⟨s, .statement hs⟩
  | classDecl => exact classDecl_of_means h
  | funDecl =>
      obtain ⟨_, _, rfl, ⟨t, rfl, ht⟩, m, rfl, framed, hbody⟩ := h
      exact ⟨_, .function ht framed hbody⟩
  | function => exact function_of_means h
  | parameters => exact parameters_of_means h
  | varDecl => exact varDecl_of_means h
  | statement => exact statement_of_means h
  | exprStmt =>
      obtain ⟨u, _, rfl, ⟨e, he⟩, q, rfl, hq⟩ := h
      exact ⟨u, e, q, rfl, he, hq⟩
  | forStmt => exact forStmt_of_means h
  | ifStmt => exact ifStmt_of_means h
  | printStmt =>
      obtain ⟨_, _, rfl, ⟨_, v, rfl, ⟨t, rfl, ht⟩, e, he⟩, q, rfl, hq⟩ := h
      exact ⟨false, _, .print ht he hq⟩
  | returnStmt =>
      obtain ⟨_, _, rfl, ⟨_, v, rfl, ⟨t, rfl, ht⟩, value⟩, q, rfl, hq⟩ := h
      obtain ⟨o, ho⟩ := optionally_of_means value
      exact ⟨false, _, .ret ht ho hq⟩
  | whileStmt => exact whileStmt_of_means h
  | block => exact block_of_means h
  | expression => exact h
  | assignment => exact assignment_of_means h
  | or | and | equality | comparison | term | factor => exact joined_of_means h fun _ hu => hu
  | unary => exact unary_of_means h
  | call => exact call_of_means h
  | arguments => exact arguments_of_means h
  | primary => exact primary_of_means h

/-- What a rule derives spells a tree. -/
theorem Derives.spells {r : Rule} (h : Derives (.rule r) w) : r.Spells w :=
  h.means spells_of_means

end Grammar

/-- A text of declarations is accepted if the grammar derives it from `program`, and only then; a single expression
if the grammar derives it from `expression`, and only then. -/
theorem TokenList.accepted_iff_derives (ts : TokenList) :
    ((Stmt.parse ts).errors = [] ↔ Derives (.rule .program) ts.tokens) ∧
      ((∃ e, Expr.parse? ts = ⟨some e, []⟩) ↔ Derives (.rule .expression) ts.tokens) := by
  constructor
  · constructor
    · intro accepted
      exact (Stmt.spelled_of_parse accepted).derives
    · intro derived
      obtain ⟨ss, spelled⟩ := derived.spells
      rw [spelled.parse]
  · constructor
    · rintro ⟨e, accepted⟩
      exact (Expr.spelled_of_parse? accepted).derives_expression
    · intro derived
      obtain ⟨e, spelled⟩ := derived.spells
      exact ⟨e, spelled.parse?⟩

end LoxScript
