import LoxScript.Proofs.Grammar.Basic

/-!
# What is spelled is derived

Tokens that spell a tree can be derived from the rule for trees of its kind.
-/

namespace LoxScript

open Grammar

def Rank.rule : Rank → Rule
  | assignment => .assignment
  | joined .disjunction => .or
  | joined .conjunction => .and
  | joined .equality => .equality
  | joined .comparison => .comparison
  | joined .term => .term
  | joined .factor => .factor
  | unary => .unary
  | call => .call
  | operand => .primary

def Level.operators : Level → Phrase
  | disjunction => .word .orWord
  | conjunction => .word .andWord
  | equality => .sign .bangEqual ||| .sign .equalEqual
  | comparison => .sign .greater ||| .sign .greaterEqual ||| .sign .less ||| .sign .lessEqual
  | term => .sign .minus ||| .sign .plus
  | factor => .sign .slash ||| .sign .star

theorem Rank.body_joined (l : Level) :
    (joined l).rule.body = .chain (.rule (joined l).tighter.rule) l.operators := by
  cases l <;> rfl

theorem Join.derives {j : Join} {t : Token} (h : t.kind = j.kind) : Derives j.level.operators [t] := by
  rcases j with op | op
  · cases op <;> exact .word h
  · cases op with
    | notEqual | minus | slash => exact .left (.sign h)
    | equal | plus | star | lessEqual => exact .right (.sign h)
    | greater => exact .left (.left (.left (.sign h)))
    | greaterEqual => exact .left (.left (.right (.sign h)))
    | less => exact .left (.right (.sign h))

/-- Every literal is an operand. -/
theorem Literal.derives {v : Literal} {t : Token} (h : t.kind = v.kind) : Derives (.rule .primary) [t] := by
  refine .rule (.left (.left (.left (.left ?_))))
  cases v with
  | nil => exact .left (.left (.right (.word h)))
  | bool b =>
      cases b with
      | false => exact .left (.left (.left (.right (.word h))))
      | true => exact .left (.left (.left (.left (.word h))))
  | number x => exact .left (.right (.terminal ⟨x, h⟩))
  | string s => exact .right (.terminal ⟨s, h⟩)

namespace Expr.Spelled

variable {r : Rank} {w : List Token} {e : Expr Unit}

/-- What binds tighter is derived on the way to what binds looser. -/
theorem derives_tighter (h : Derives (.rule r.tighter.rule) w) : Derives (.rule r.rule) w := by
  cases r with
  | assignment => exact .rule (.right h)
  | joined l =>
      refine .rule ?_
      rw [Rank.body_joined]
      exact h.alone
  | unary => exact .rule (.right h)
  | call => exact .rule h.alone
  | operand => exact h

theorem derives (h : Spelled r w e) : Derives (.rule r.rule) w := by
  induction h with
  | literal ht => exact Literal.derives ht
  | var hn => exact .rule (.left (.left (.right (.name hn))))
  | this ht => exact .rule (.left (.right (.word ht)))
  | @super t d n _ ht hd hn =>
      have whole : Derives (.word .superWord ++ .sign .dot ++ .name) ([t] ++ [d] ++ [n]) :=
        .seq (.seq (.word ht) (.sign hd)) (.name hn)
      exact .rule (.right whole)
  | @grouping l w r _ hl _ hr ih =>
      have whole : Derives (.sign .leftParen ++ .rule .expression ++ .sign .rightParen) ([l] ++ w ++ [r]) :=
        .seq (.seq (.sign hl) (.rule ih)) (.sign hr)
      exact .rule (.left (.left (.left (.right whole))))
  | @get w d n _ _ _ hd hn ih =>
      have link : Derives (.sign .dot ++ .name) ([d] ++ [n]) := .seq (.sign hd) (.name hn)
      exact .rule (ih.body.snoc (.right link))
  | @call w l v r _ arguments _ hl _ commas few hr ih iharguments =>
      have inner : ∀ u ∈ arguments.map Prod.fst, Derives (.rule .expression) u := by
        intro u hu
        obtain ⟨a, ha, rfl⟩ := List.mem_map.1 hu
        exact .rule (iharguments a ha)
      have list : Derives (.optional (.rule .arguments)) v :=
        .optional_list rfl inner (by rwa [List.length_map]) commas
      have link : Derives (.sign .leftParen ++ .optional (.rule .arguments) ++ .sign .rightParen) ([l] ++ v ++ [r]) :=
        .seq (.seq (.sign hl) list) (.sign hr)
      exact .rule (ih.body.snoc (.left link))
  | @unary t w _ op ht _ ih =>
      have signed : Derives (.sign .bang ||| .sign .minus) [t] := by
        cases op with
        | not => exact .left (.sign ht)
        | negate => exact .right (.sign ht)
      have whole : Derives ((.sign .bang ||| .sign .minus) ++ .rule .unary) ([t] ++ w) := .seq signed ih
      exact .rule (.left whole)
  | @join u t v _ _ j _ ht _ iha ihb =>
      have link : Derives (j.level.operators ++ .rule (Rank.joined j.level).tighter.rule) ([t] ++ v) :=
        .seq (Join.derives ht) ihb
      refine .rule ?_
      have left := iha.body
      rw [Rank.body_joined] at left ⊢
      exact left.snoc link
  | @assign n q w _ _ hn hq _ ih =>
      have whole : Derives (.optional (.rule .call ++ .sign .dot) ++ .name ++ .sign .equal ++ .rule .assignment)
          ([] ++ [n] ++ [q] ++ w) := .seq (.seq (.seq .absent (.name hn)) (.sign hq)) ih
      exact .rule (.left whole)
  | @set u d n q w _ _ _ _ hd hn hq _ iho ih =>
      have whole : Derives (.optional (.rule .call ++ .sign .dot) ++ .name ++ .sign .equal ++ .rule .assignment)
          ((u ++ [d]) ++ [n] ++ [q] ++ w) :=
        .seq (.seq (.seq (.present (.seq iho (.sign hd))) (.name hn)) (.sign hq)) ih
      have same : u ++ d :: n :: q :: w = (u ++ [d]) ++ [n] ++ [q] ++ w := by simp
      rw [same]
      exact .rule (.left whole)
  | tighter _ ih => exact derives_tighter ih

theorem derives_expression (h : Spelled .assignment w e) : Derives (.rule .expression) w :=
  .rule h.derives

end Expr.Spelled

/-! ## Statements -/

section Statements

variable {w : List Token}

theorem Optionally.derives {o : Option (Expr Unit)} (h : Optionally (Expr.Spelled .assignment) w o) :
    Derives (.optional (.rule .expression)) w := by
  cases h with
  | absent => exact .absent
  | present he => exact .present he.derives_expression

theorem VarSpelled.derives {t : Token} {s : Stmt Unit} (h : VarSpelled w s) (ht : t.kind = .keyword .varWord) :
    Derives (.rule .varDecl) (t :: w) := by
  cases h with
  | @plain n _ q hn hq =>
      have whole : Derives Rule.varDecl.body ([t] ++ [n] ++ [] ++ [q]) :=
        .seq (.seq (.seq (.word ht) (.name hn)) .absent) (.sign hq)
      exact .rule whole
  | @initialized n _ q v _ p hn hq he hp =>
      have value : Derives (.sign .equal ++ .rule .expression) ([q] ++ v) := .seq (.sign hq) he.derives_expression
      have whole : Derives Rule.varDecl.body ([t] ++ [n] ++ ([q] ++ v) ++ [p]) :=
        .seq (.seq (.seq (.word ht) (.name hn)) (.present value)) (.sign hp)
      exact .rule whole

theorem InitializerSpelled.derives {i : Option (Stmt Unit)} (h : InitializerSpelled w i) :
    Derives (.rule .varDecl ||| .rule .exprStmt ||| .sign .semicolon) w := by
  cases h with
  | absent hs => exact .right (.sign hs)
  | var ht hv => exact .left (.left (hv.derives ht))
  | expression he hs => exact .left (.right (.rule (.seq he.derives_expression (.sign hs))))

/-- Parts that are derived, one after another. -/
theorem Grammar.Derives.many_map {α : Type} {parts : List α} {f : α → List Token} {a : Phrase}
    (h : ∀ p ∈ parts, Derives a (f p)) : Derives (.many a) (parts.map f).flatten := by
  refine .many fun w hw => ?_
  obtain ⟨p, hp, rfl⟩ := List.mem_map.1 hw
  exact h p hp

theorem Grammar.Derives.block {l r : Token} {body : List (List Token × Stmt Unit)}
    (hl : l.kind = .symbol .leftBrace) (h : ∀ p ∈ body, Derives (.rule .declaration) p.1)
    (hr : r.kind = .symbol .rightBrace) :
    Derives (.rule .block) (l :: ((body.map Prod.fst).flatten ++ [r])) := by
  have whole : Derives Rule.block.body ([l] ++ (body.map Prod.fst).flatten ++ [r]) :=
    .seq (.seq (.sign hl) (.many_map h)) (.sign hr)
  exact .rule whole

theorem CallableText.Framed.derives {m : CallableText} (h : m.Framed)
    (hbody : ∀ p ∈ m.body, Derives (.rule .declaration) p.1) : Derives (.rule .function) m.tokens := by
  obtain ⟨header, name, params, body, close⟩ := m
  obtain ⟨hheader, hc⟩ := h
  cases hheader with
  | @mk n _ l v r b params hn hl hparams commas few hr hb =>
      have names : ∀ u ∈ params.map Prod.fst, Derives .name u := by
        intro u hu
        obtain ⟨p, hp, rfl⟩ := List.mem_map.1 hu
        obtain ⟨t, ht, hx⟩ := hparams p hp
        rw [ht]
        exact .name hx
      have list : Derives (.optional (.rule .parameters)) v :=
        .optional_list rfl names (by rwa [List.length_map]) commas
      have whole : Derives Rule.function.body
          ([n] ++ [l] ++ v ++ [r] ++ (b :: ((body.map Prod.fst).flatten ++ [close]))) :=
        .seq (.seq (.seq (.seq (.name hn) (.sign hl)) list) (.sign hr)) (.block hb hbody hc)
      refine .rule ?_
      simpa [CallableText.tokens] using whole

theorem SuperclassSpelled.derives {o : Option (Name × Unit)} (h : SuperclassSpelled w o) :
    Derives (.optional (.sign .less ++ .name)) w := by
  cases h with
  | absent => exact .absent
  | @present s n _ hs hn =>
      have sign : Derives (.sign .less ++ .name) ([s] ++ [n]) := .seq (.sign hs) (.name hn)
      exact .present sign

namespace Stmt

def Form.rule : Form → Rule
  | statement _ => .statement
  | declaration => .declaration

theorem Spelled.derives {form : Form} {s : Stmt Unit} (h : Spelled form w s) : Derives (.rule form.rule) w := by
  induction h with
  | expression he hs =>
      refine .rule (.left (.left (.left (.left (.left (.left (.rule ?_)))))))
      exact .seq he.derives_expression (.sign hs)
  | @print p w _ q ht he hq =>
      have whole : Derives Rule.printStmt.body ([p] ++ w ++ [q]) :=
        .seq (.seq (.word ht) he.derives_expression) (.sign hq)
      exact .rule (.left (.left (.left (.right (.rule whole)))))
  | @ret t w _ q ht ho hq =>
      have whole : Derives Rule.returnStmt.body ([t] ++ w ++ [q]) := .seq (.seq (.word ht) ho.derives) (.sign hq)
      exact .rule (.left (.left (.right (.rule whole))))
  | block hl _ hr ih => exact .rule (.right (.block hl ih hr))
  | @loop t l w _ r v _ _ ht hl he hr _ ih =>
      have whole : Derives Rule.whileStmt.body ([t] ++ [l] ++ w ++ [r] ++ v) :=
        .seq (.seq (.seq (.seq (.word ht) (.sign hl)) he.derives_expression) (.sign hr)) ih
      refine .rule (.left (.right (.rule ?_)))
      simpa using whole
  | @forLoop t l w₁ _ w₂ _ q w₃ _ r v _ _ ht hl hi hc hq hn hr _ ih =>
      have whole : Derives Rule.forStmt.body ([t] ++ [l] ++ w₁ ++ w₂ ++ [q] ++ w₃ ++ [r] ++ v) :=
        .seq (.seq (.seq (.seq (.seq (.seq (.seq (.word ht) (.sign hl)) hi.derives) hc.derives) (.sign hq)) hn.derives)
          (.sign hr)) ih
      refine .rule (.left (.left (.left (.left (.left (.right (.rule ?_)))))))
      simpa using whole
  | @ite t l w _ r v _ _ ht hl he hr _ ih =>
      have whole : Derives Rule.ifStmt.body ([t] ++ [l] ++ w ++ [r] ++ v ++ []) :=
        .seq (.seq (.seq (.seq (.seq (.word ht) (.sign hl)) he.derives_expression) (.sign hr)) ih) .absent
      refine .rule (.left (.left (.left (.left (.right (.rule ?_))))))
      simpa using whole
  | @iteElse t l w _ r v _ q u _ _ ht hl he hr _ hq _ ih ih' =>
      have other : Derives (.word .elseWord ++ .rule .statement) ([q] ++ u) := .seq (.word hq) ih'
      have whole : Derives Rule.ifStmt.body ([t] ++ [l] ++ w ++ [r] ++ v ++ ([q] ++ u)) :=
        .seq (.seq (.seq (.seq (.seq (.word ht) (.sign hl)) he.derives_expression) (.sign hr)) ih) (.present other)
      refine .rule (.left (.left (.left (.left (.right (.rule ?_))))))
      simpa using whole
  | var ht hv => exact .rule (.left (.right (hv.derives ht)))
  | @function t m ht framed _ ih =>
      have whole : Derives Rule.funDecl.body ([t] ++ m.tokens) := .seq (.word ht) (framed.derives ih)
      exact .rule (.left (.left (.right (.rule whole))))
  | @classDecl t n _ w _ l r methods ht hn ho hl framed _ hr ih =>
      have bodies : ∀ m ∈ methods, Derives (.rule .function) m.tokens := fun m hm => (framed m hm).derives (ih m hm)
      have whole : Derives Rule.classDecl.body
          ([t] ++ [n] ++ w ++ [l] ++ (methods.map CallableText.tokens).flatten ++ [r]) :=
        .seq (.seq (.seq (.seq (.seq (.word ht) (.name hn)) ho.derives) (.sign hl)) (.many_map bodies)) (.sign hr)
      refine .rule (.left (.left (.left (.rule ?_))))
      simpa using whole
  | statement _ ih => exact .rule (.right ih)

end Stmt

theorem Stmts.Spelled.derives {ss : List (Stmt Unit)} (h : Stmts.Spelled w ss) : Derives (.rule .program) w := by
  obtain ⟨parts, hparts, rfl, _⟩ := h
  exact .rule (.many_map fun p hp => (hparts p hp).derives)

end Statements

end LoxScript
