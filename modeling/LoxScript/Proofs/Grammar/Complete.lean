import LoxScript.Proofs.Grammar.Reads

/-!
# What is spelled is read

A parser reads every tree from the tokens that spell it, if what follows does not go on with the tree.
-/

namespace LoxScript

theorem Token.Kind.strength_lt (k : Token.Kind) : k.strength < Rank.operand.tightness := by
  unfold strength
  split
  · decide
  · decide
  · decide
  · split
    · next j _ => cases j.level <;> decide
    · decide

namespace Rank

theorem tightness_pos (r : Rank) : 0 < r.tightness := by
  cases r with
  | joined l => cases l <;> decide
  | _ => decide

theorem stops_nil (r : Rank) : r.Stops [] := by
  simp [Stops]

theorem stops_cons {r : Rank} {t : Token} {ts : List Token} : r.Stops (t :: ts) ↔ t.kind.strength < r.tightness := by
  simp [Stops]

/-- Behind a symbol that is no operator every expression ends. -/
theorem stops_of_strength {t : Token} (h : t.kind.strength = 0) (r : Rank) (ts : List Token) : r.Stops (t :: ts) := by
  rw [stops_cons, h]
  exact r.tightness_pos

theorem stops_operand (rest : List Token) : operand.Stops rest :=
  fun t _ => t.kind.strength_lt

theorem Stops.mono {r r' : Rank} {rest : List Token} (h : r.Stops rest) (hr : r.tightness ≤ r'.tightness) :
    r'.Stops rest :=
  fun t ht => Nat.lt_of_lt_of_le (h t ht) hr

theorem Stops.ne {r : Rank} {rest : List Token} {k : Token.Kind} (h : r.Stops rest)
    (hk : r.tightness ≤ k.strength) : ∀ t ∈ rest.head?, t.kind ≠ k := by
  rintro t ht rfl
  exact absurd (h t ht) (Nat.not_lt.2 hk)

end Rank

namespace Expr.Spelled

/-- No call chain begins with a sign. -/
theorem no_sign {r : Rank} {w : List Token} {e : Expr Unit} (h : e.Spelled r w)
    (hr : Rank.call.tightness ≤ r.tightness) : ∃ t ts, w = t :: ts ∧ UnaryOp.ofKind? t.kind = none := by
  induction h with
  | literal ht =>
      refine ⟨_, _, rfl, ?_⟩
      rw [ht]
      cases ‹Literal› with
      | bool b => cases b <;> rfl
      | _ => rfl
  | var ht =>
      refine ⟨_, _, rfl, ?_⟩
      rw [(Token.kind_of_name? ht).1]
      rfl
  | this ht | super ht _ _ | grouping ht _ _ _ =>
      refine ⟨_, _, rfl, ?_⟩
      rw [ht]
      rfl
  | get _ _ _ ih | call _ _ _ _ _ _ ih _ =>
      obtain ⟨t, ts, rfl, ht⟩ := ih (Nat.le_refl _)
      exact ⟨t, _, rfl, ht⟩
  | unary => exact absurd hr (by decide)
  | @join _ _ _ _ _ j => exact absurd hr (by cases j.level <;> decide)
  | assign | set => exact absurd hr (by decide)
  | @tighter r _ _ _ ih =>
      rcases r.tightness_tighter with rfl | next
      · exact ih (by decide)
      · exact ih (by omega)

end Expr.Spelled

namespace Parser

/-! ## Expressions -/

/-- The parser reads every expression of the given rank that has at most `n` tokens. -/
def ReadsRank (n : Nat) (r : Rank) (p : Parser (Expr Unit)) : Prop :=
  ∀ w e rest, w.length ≤ n → e.Spelled r w → r.Stops rest → Reads p w rest e

section Expressions

variable {n fuel : Nat} {p q : Parser (Expr Unit)}

theorem operand_reads (h : 1 ≤ n → ReadsRank (n - 1) .assignment p) : ReadsRank n .operand (operand p) := by
  intro w e rest hw he _
  generalize hr : Rank.operand = r at he
  induction he with
  | literal ht =>
      refine Reads.front ?_
      dsimp only [List.cons_append]
      rw [ht]
      cases ‹Literal› with
      | bool b => cases b <;> exact .next .pure
      | _ => exact .next .pure
  | @var t x ht =>
      obtain ⟨hk, hl⟩ := Token.kind_of_name? ht
      refine Reads.front ?_
      dsimp only [List.cons_append]
      rw [hk, hl]
      exact .next .pure
  | this ht =>
      refine Reads.front ?_
      dsimp only [List.cons_append]
      rw [ht]
      exact .next .pure
  | @super t d n x ht hd hn =>
      refine Reads.front ?_
      dsimp only [List.cons_append]
      rw [ht]
      exact .next (.bind (u := [d]) (.symbolAfter hd) (.bind (.name hn) .pure))
  | @grouping l v c e hl he hc =>
      rw [List.length_cons, List.length_append] at hw
      refine Reads.front ?_
      dsimp only [List.cons_append]
      rw [hl]
      have ends : Rank.assignment.Stops ([c] ++ rest) :=
        Rank.stops_of_strength (by rw [hc]; rfl) _ _
      have inner := h (by omega) v e ([c] ++ rest) (by omega) he ends
      exact .next (inner.bind (.bind (.symbolAfter hc) .pure))
  | @tighter r _ _ _ ih =>
      subst hr
      exact ih hw rfl
  | _ => cases hr

/-- Arguments are read up to the closing parenthesis. -/
theorem arguments_reads (h : ReadsRank n .assignment p) {parts : List (List Token × Expr Unit)} {v rest : List Token}
    {c : Token} (hp : ∀ a ∈ parts, a.2.Spelled .assignment a.1) (commas : Commas (parts.map Prod.fst) v)
    (few : parts.length ≤ maxArguments) (hc : c.kind = .symbol .rightParen) (hv : v.length ≤ n) (hn : n ≤ fuel) :
    Reads (arguments fuel p) v (c :: rest) (parts.map Prod.snd) := by
  refine .listed Rank.assignment.Stops (fun a ha r hr => h a.1 a.2 r ?_ (hp a ha) hr) (fun t ts ht => ?_)
    (fun a ha r => (hp a ha).head_ne rfl r) commas few hc (Nat.le_trans hv hn)
  · exact Nat.le_trans (commas.length_le (List.mem_map_of_mem ha)) hv
  · refine Rank.stops_of_strength ?_ _ _
    rcases ht with ht | ht <;>
      · rw [ht]
        rfl

/-- A chain of calls and property accesses is read link by link. -/
theorem callChain_arrives {step : Expr Unit → Parser (Expr Unit ⊕ Expr Unit)} (hp : ReadsRank n .operand p)
    (hget : ∀ e d m x rest, d.kind = .symbol .dot → m.name? = some x →
      Reads (step e) [d, m] rest (.inl (.get e x)))
    (hcall : ∀ e l v r (parts : List (List Token × Expr Unit)) rest, v.length + 3 ≤ n →
      l.kind = .symbol .leftParen → (∀ a ∈ parts, a.2.Spelled .assignment a.1) → Commas (parts.map Prod.fst) v →
      parts.length ≤ maxArguments → r.kind = .symbol .rightParen →
      Reads (step e) (l :: (v ++ [r])) rest (.inl (.call e r.line (parts.map Prod.snd))))
    {w : List Token} {e : Expr Unit} (h : e.Spelled .call w) (hw : w.length ≤ n) (rest : List Token) :
    Reads.Arrives p step w rest e := by
  generalize hr : Rank.call = r at h
  induction h generalizing rest with
  | @get u d m x o ho hd hm ih =>
      rw [List.length_append] at hw
      exact (ih (by omega) _ rfl).round (hget o d m x rest hd hm) (by simp)
  | @call u l v c o parts ho hl hparts commas few hc ih =>
      have pos := ho.length_pos
      simp only [List.length_append, List.length_cons, List.length_nil] at hw
      exact (ih (by omega) _ rfl).round (hcall o l v c parts rest (by omega) hl hparts commas few hc) (by simp)
  | tighter he _ =>
      subst hr
      exact Reads.arrives (hp _ _ rest hw he (Rank.stops_operand rest)) he.length_pos
  | @join _ _ _ _ _ j => cases hr
  | _ => cases hr

theorem callChain_reads (h : 1 ≤ n → ReadsRank (n - 1) .assignment p) (hn : n ≤ fuel) :
    ReadsRank n .call (callChain fuel p) := by
  intro w e rest hw he stops
  have no_call : ∀ t ∈ rest.head?, t.kind ≠ .symbol .leftParen := stops.ne (by decide)
  have no_get : ∀ t ∈ rest.head?, t.kind ≠ .symbol .dot := stops.ne (by decide)
  refine Reads.Arrives.done (callChain_arrives (operand_reads h) ?_ ?_ he hw rest) ?_ (Nat.le_trans hw hn)
  · intro e d m x rest hd hm
    refine .bind (u := []) (.symbol?_none (by simp [hd])) ?_
    exact .bind (u := [d]) (.symbol?_some hd) (.bind (u := [m]) (.name hm) .pure)
  · intro e l v c parts rest hv hl hparts commas few hc
    have inner : Reads (arguments fuel p) v (c :: rest) (parts.map Prod.snd) :=
      arguments_reads (h (by omega)) hparts commas few hc (by omega) (by omega)
    refine .bind (u := [l]) (.symbol?_some hl) ?_
    exact .bind inner (.bind (u := [c]) (.symbolAfter hc) .pure)
  · exact .bind (u := []) (.symbol?_none no_call) (.bind (u := []) (.symbol?_none no_get) .pure)

theorem signed_reads (hp : 1 ≤ n → ReadsRank (n - 1) .unary p) (hq : ReadsRank n .call q) :
    ReadsRank n .unary (signed p q) := by
  intro w e rest hw he stops
  cases he with
  | @unary t v e op ht he =>
      rw [List.length_cons] at hw
      have sign : (UnaryOp.ofKind? t.kind).map (fun op => (op, t.line)) = some (op, t.line) := by
        rw [ht, UnaryOp.ofKind?_symbol]
        rfl
      have operand := hp (by omega) v e rest (by omega) he stops
      exact .bind (u := [t]) (.accept?_some sign) operand.giving
  | tighter he =>
      obtain ⟨t, ts, rfl, ht⟩ := he.no_sign (Nat.le_refl _)
      refine .bind (u := []) (.accept?_none fun t' ht' => ?_) (hq _ e rest hw he (stops.mono (by decide)))
      cases ht'
      rw [ht]
      rfl

theorem joined_arrives {level : Level} {step : Expr Unit → Parser (Expr Unit ⊕ Expr Unit)}
    (hp : ReadsRank n (Rank.joined level).tighter p)
    (hstep : ∀ a t v b (j : Join) rest, v.length ≤ n → t.kind = j.kind → j.level = level →
      b.Spelled (Rank.joined level).tighter v → (Rank.joined level).tighter.Stops rest →
      Reads (step a) (t :: v) rest (.inl (j.build t.line a b)))
    {w : List Token} {e : Expr Unit} (h : e.Spelled (.joined level) w) (hw : w.length ≤ n) (rest : List Token)
    (stops : (Rank.joined level).tighter.Stops rest) : Reads.Arrives p step w rest e := by
  generalize hr : Rank.joined level = r at h
  induction h generalizing rest with
  | @join u t v a b j ha ht hb iha _ =>
      obtain rfl : level = j.level := Rank.joined.inj hr
      rw [List.length_append, List.length_cons] at hw
      have next : (Rank.joined j.level).tighter.Stops (t :: v ++ rest) := by
        rw [List.cons_append, Rank.stops_cons, ht, Token.Kind.strength_join]
        exact Rank.tightness_joined_lt j.level
      exact (iha (by omega) _ next rfl).round (hstep a t v b j rest (by omega) ht rfl hb stops) (by simp)
  | tighter he _ =>
      subst hr
      exact Reads.arrives (hp _ _ rest hw he stops) he.length_pos
  | _ => cases hr

theorem joined_reads {level : Level} (hp : ReadsRank n (Rank.joined level).tighter p) (hn : n ≤ fuel) :
    ReadsRank n (.joined level) (joined fuel level p) := by
  intro w e rest hw he stops
  have inner : (Rank.joined level).tighter.Stops rest :=
    stops.mono (Nat.le_of_lt (Rank.tightness_joined_lt level))
  refine Reads.Arrives.done (joined_arrives hp ?_ he hw rest inner) ?_ (Nat.le_trans hw hn)
  · intro a t v b j rest hv ht hlevel hb stops
    refine .bind (u := [t]) (a := some (j, t.line)) (.accept?_some ?_) (hp v b rest hv hb stops).giving
    rw [ht, Join.ofKind?_kind]
    exact if_pos hlevel
  · refine .bind (u := []) (.accept?_none fun t ht => ?_) .pure
    split
    · next j hj =>
        refine if_neg fun same => ?_
        have weaker := stops t ht
        rw [← Join.kind_of_ofKind? hj, Token.Kind.strength_join, same] at weaker
        exact absurd weaker (Nat.lt_irrefl _)
    · rfl

theorem assignment_reads (hp : 1 ≤ n → ReadsRank (n - 1) .assignment p)
    (hq : ReadsRank n (.joined .disjunction) q) : ReadsRank n .assignment (assignment p q) := by
  intro w e rest hw he stops
  have target : ∀ {u t ts a}, t.kind = .symbol .equal → u.length ≤ n → Expr.Spelled (.joined .disjunction) u a →
      Reads q u (t :: ts) a := by
    intro u t ts a ht hu ha
    refine hq u a (t :: ts) hu ha ?_
    rw [Rank.stops_cons, ht]
    decide
  cases he with
  | @assign m t v x e hm ht he =>
      simp only [List.length_cons] at hw
      have left := Expr.Spelled.loosen (r := .joined .disjunction) (.var hm) (by decide)
      have value := hp (by omega) v e rest (by omega) he stops
      exact .bind (u := [m]) (target ht (by simp; omega) left) (.bind (u := [t]) (.symbol?_some ht) value.giving)
  | @set u d m t v x o e ho hd hm ht he =>
      simp only [List.length_append, List.length_cons] at hw
      have left := Expr.Spelled.loosen (r := .joined .disjunction) (.get ho hd hm) (by decide)
      have value := hp (by omega) v e rest (by omega) he stops
      have whole : Reads (assignment p q) ((u ++ [d, m]) ++ ([t] ++ v)) rest (.set o x e) :=
        .bind (target ht (by simp; omega) left) (.bind (.symbol?_some ht) value.giving)
      simpa using whole
  | tighter he =>
      have no_value : ∀ t ∈ rest.head?, t.kind ≠ .symbol .equal := stops.ne (by decide)
      have left := hq w e rest hw he (stops.mono (by decide))
      have whole : Reads (assignment p q) (w ++ []) rest e :=
        .bind left (.bind (u := []) (.symbol?_none no_value) .pure)
      simpa using whole

theorem expression_unary_reads (fuel : Nat) :
    (∀ n, 2 * n + 3 ≤ fuel → ReadsRank n .assignment (expression fuel)) ∧
      ∀ n, 2 * n + 2 ≤ fuel → ReadsRank n .unary (unary fuel) := by
  induction fuel with
  | zero => exact ⟨fun n hn => by omega, fun n hn => by omega⟩
  | succ fuel ih =>
      refine ⟨fun n hn => ?_, fun n hn => ?_⟩
      · have unaries := ih.2 n (by omega)
        have levels : ReadsRank n (.joined .disjunction) (joinedAll fuel (unary fuel) Level.all) := by
          iterate 6 apply joined_reads _ (by omega)
          exact unaries
        exact assignment_reads (fun pos => ih.1 (n - 1) (by omega)) levels
      · have calls : ReadsRank n .call (callChain fuel (expression fuel)) :=
          callChain_reads (fun pos => ih.1 (n - 1) (by omega)) (by omega)
        exact signed_reads (fun pos => ih.2 (n - 1) (by omega)) calls

theorem expression_reads {w rest : List Token} {e : Expr Unit} (he : e.Spelled .assignment w)
    (stops : Rank.assignment.Stops rest) (hfuel : 2 * w.length + 3 ≤ fuel) : Reads (expression fuel) w rest e :=
  (expression_unary_reads fuel).1 w.length hfuel w e rest (Nat.le_refl _) he stops

end Expressions

end Parser

/-- An expression is read from the tokens that spell it. -/
theorem Expr.Spelled.parse? {ts : TokenList} {e : Expr Unit} (h : e.Spelled .assignment ts.tokens) :
    Expr.parse? ts = ⟨some e, []⟩ := by
  have enough : 2 * ts.tokens.length + 3 ≤ ts.fuel := by
    unfold TokenList.fuel
    omega
  have read : Parser.Reads (Parser.wholeExpression ts.fuel) (ts.tokens ++ []) [] e :=
    (Parser.expression_reads h (Rank.stops_nil _) enough).bind (.bind (u := []) .atEnd .pure)
  unfold Expr.parse? Parser.run
  rw [read.map ⟨ts.tokens, ts.endLine, #[]⟩ (by simp)]

/-! ## Statements -/

/-- There are no more parts than tokens, if no part is empty. -/
theorem length_le_flatten {ws : List (List Token)} (h : ∀ w ∈ ws, w ≠ []) : ws.length ≤ ws.flatten.length := by
  induction ws with
  | nil => exact Nat.le_refl _
  | cons w ws ih =>
      have first := List.length_pos_iff.2 (h w List.mem_cons_self)
      have others := ih fun u hu => h u (List.mem_cons_of_mem _ hu)
      rw [List.flatten_cons, List.length_append, List.length_cons]
      omega

theorem length_le_of_mem {w : List Token} {ws : List (List Token)} (h : w ∈ ws) : w.length ≤ ws.flatten.length :=
  (List.sublist_flatten_of_mem h).length_le

namespace Parser

section Statements

variable {n fuel : Nat} {p : Parser (Stmt Unit)} {d : Parser (Stmt Unit)} {b : Parser (List (Stmt Unit))}
  {w rest : List Token} {e : Expr Unit} {q : Token}

/-- The parser reads every statement that has at most `n` tokens, unless an `else` follows that belongs to it. -/
def ReadsStatement (n : Nat) (p : Parser (Stmt Unit)) : Prop :=
  ∀ dangling w s rest, w.length ≤ n → s.Spelled (.statement dangling) w → (dangling = true → NoElse rest) →
    Reads p w rest s

def ReadsDeclaration (n : Nat) (d : Parser (Stmt Unit)) : Prop :=
  ∀ w s rest, w.length ≤ n → s.Spelled .declaration w → NoElse rest → Reads d w rest s

/-- An expression is read in front of a token that is no operator. -/
theorem expression_reads_before (he : e.Spelled .assignment w) (hq : q.kind.strength = 0)
    (hfuel : 2 * w.length + 3 ≤ fuel) : Reads (expression fuel) w (q :: rest) e :=
  expression_reads he (Rank.stops_of_strength hq _ _) hfuel

theorem expressionStatement_reads (he : e.Spelled .assignment w) (hq : q.kind = .symbol .semicolon)
    (hfuel : 2 * w.length + 3 ≤ fuel) : Reads (expressionStatement fuel) (w ++ [q]) rest (.expression e) :=
  .bind (expression_reads_before he (by rw [hq]; rfl) hfuel) (.bind (u := [q]) (.symbolAfter hq) .pure)

theorem printStatement_reads (he : e.Spelled .assignment w) (hq : q.kind = .symbol .semicolon)
    (hfuel : 2 * w.length + 3 ≤ fuel) : Reads (printStatement fuel) (w ++ [q]) rest (.print e) :=
  .bind (expression_reads_before he (by rw [hq]; rfl) hfuel) (.bind (u := [q]) (.symbolAfter hq) .pure)

theorem varDeclaration_reads {s : Stmt Unit} (h : VarSpelled w s) (hfuel : 2 * w.length + 3 ≤ fuel) :
    Reads (varDeclaration fuel) w rest s := by
  cases h with
  | @plain n x q hn hq =>
      have no_value : ∀ t ∈ ([q] ++ rest).head?, t.kind ≠ .symbol .equal := by simp [hq]
      refine .bind (u := [n]) (.name hn) (.bind (u := []) (.symbol?_none no_value) ?_)
      exact .bind (u := []) .pure (.bind (u := [q]) (.symbolAfter hq) .pure)
  | @initialized n x t w e q hn ht he hq =>
      simp only [List.length_cons, List.length_append] at hfuel
      have value : Reads (expression fuel) w ([q] ++ rest) e :=
        expression_reads_before he (by rw [hq]; rfl) (by omega)
      refine .bind (u := [n]) (.name hn) (.bind (u := [t]) (.symbol?_some ht) ?_)
      exact .bind value.map (.bind (u := [q]) (.symbolAfter hq) .pure)

/-- An expression that may be absent is read in front of a symbol that begins none. -/
theorem expressionUnless_reads {s : Symbol} {o : Option (Expr Unit)} (h : Optionally (Expr.Spelled .assignment) w o)
    (hq : q.kind = .symbol s) (hs : (Token.Kind.symbol s).strength = 0)
    (hs' : (Token.Kind.symbol s).startsExpression = false) (hfuel : 2 * w.length + 3 ≤ fuel) :
    Reads (expressionUnless fuel s) w (q :: rest) o := by
  cases h with
  | absent => exact .bind (u := []) (.atSymbol_true hq) .pure
  | present he =>
      exact .bind (u := []) (.atSymbol_false (he.head_ne hs' _))
        (expression_reads_before he (by rw [hq, hs]) hfuel).map

theorem returnStatement_reads {o : Option (Expr Unit)} {line : Int} (h : Optionally (Expr.Spelled .assignment) w o)
    (hq : q.kind = .symbol .semicolon) (hfuel : 2 * w.length + 3 ≤ fuel) :
    Reads (returnStatement fuel line) (w ++ [q]) rest (.ret line o) :=
  .bind (expressionUnless_reads h hq rfl rfl hfuel) (.bind (u := [q]) (.symbolAfter hq) .pure)

/-- The condition of a statement, between parentheses. -/
theorem condition_reads {β : Type} {f : Expr Unit → Parser β} {before after : Clause} {l r : Token} {v : List Token}
    {a : β} (hl : l.kind = .symbol .leftParen) (he : e.Spelled .assignment w) (hr : r.kind = .symbol .rightParen)
    (hfuel : 2 * w.length + 3 ≤ fuel) (h : Reads (f e) v rest a) : Reads (do
      let _ ← symbolAfter .leftParen before
      let c ← expression fuel
      let _ ← symbolAfter .rightParen after
      f c) (l :: (w ++ r :: v)) rest a := by
  have value : Reads (expression fuel) w ((r :: v) ++ rest) e :=
    expression_reads_before he (by rw [hr]; rfl) hfuel
  exact .bind (u := [l]) (.symbolAfter hl) (.bind value (.bind (u := [r]) (.symbolAfter hr) h))

theorem whileStatement_reads {l r : Token} {v : List Token} {s : Stmt Unit} (hl : l.kind = .symbol .leftParen)
    (he : e.Spelled .assignment w) (hr : r.kind = .symbol .rightParen) (hfuel : 2 * w.length + 3 ≤ fuel)
    (h : Reads p v rest s) : Reads (whileStatement fuel p) (l :: (w ++ r :: v)) rest (.loop e s) :=
  condition_reads hl he hr hfuel h.giving

theorem ifStatement_reads {l r : Token} {v : List Token} {s : Stmt Unit} (hl : l.kind = .symbol .leftParen)
    (he : e.Spelled .assignment w) (hr : r.kind = .symbol .rightParen) (hfuel : 2 * w.length + 3 ≤ fuel)
    (h : Reads p v rest s) (noElse : NoElse rest) :
    Reads (ifStatement fuel p) (l :: (w ++ r :: v)) rest (.ite e s none) := by
  refine condition_reads hl he hr hfuel ?_
  rw [← List.append_nil v]
  exact .bind (v := []) h (.bind (u := []) (.keyword?_none noElse) .pure)

theorem ifElseStatement_reads {l r : Token} {v u : List Token} {s s' : Stmt Unit} (hl : l.kind = .symbol .leftParen)
    (he : e.Spelled .assignment w) (hr : r.kind = .symbol .rightParen) (hfuel : 2 * w.length + 3 ≤ fuel)
    (hq : q.kind = .keyword .elseWord) (h : Reads p v (q :: u ++ rest) s) (h' : Reads p u rest s') :
    Reads (ifStatement fuel p) (l :: (w ++ r :: (v ++ q :: u))) rest (.ite e s (some s')) := by
  refine condition_reads hl he hr hfuel ?_
  exact .bind h (.bind (u := [q]) (.keyword?_some hq) h'.giving)

theorem forInitializer_reads {i : Option (Stmt Unit)} (h : InitializerSpelled w i) (hfuel : 2 * w.length + 3 ≤ fuel) :
    Reads (forInitializer fuel) w rest i := by
  cases h with
  | absent hq => exact .bind (u := [_]) (.symbol?_some hq) .pure
  | @var t w i ht hi =>
      rw [List.length_cons] at hfuel
      have no_symbol : ∀ u ∈ ([t] ++ (w ++ rest)).head?, u.kind ≠ .symbol .semicolon := by simp [ht]
      refine .bind (u := []) (.symbol?_none no_symbol) (.bind (u := [t]) (.keyword?_some ht) ?_)
      exact (varDeclaration_reads hi (by omega)).map
  | @expression w e q he hq =>
      rw [List.length_append] at hfuel
      have no_symbol : ∀ u ∈ ((w ++ [q]) ++ rest).head?, u.kind ≠ .symbol .semicolon := by
        rw [List.append_assoc]
        exact he.head_ne rfl _
      have no_word : ∀ u ∈ ((w ++ [q]) ++ rest).head?, u.kind ≠ .keyword .varWord := by
        rw [List.append_assoc]
        exact he.head_ne rfl _
      refine .bind (u := []) (.symbol?_none no_symbol) (.bind (u := []) (.keyword?_none no_word) ?_)
      exact (expressionStatement_reads he hq (by omega)).map

theorem forStatement_reads {l r : Token} {w₁ w₂ w₃ v : List Token} {i : Option (Stmt Unit)}
    {c n : Option (Expr Unit)} {s : Stmt Unit} (hl : l.kind = .symbol .leftParen) (hi : InitializerSpelled w₁ i)
    (hc : Optionally (Expr.Spelled .assignment) w₂ c) (hq : q.kind = .symbol .semicolon)
    (hn : Optionally (Expr.Spelled .assignment) w₃ n) (hr : r.kind = .symbol .rightParen)
    (hfuel : 2 * (w₁.length + w₂.length + w₃.length) + 3 ≤ fuel) (h : Reads p v rest s) :
    Reads (forStatement fuel p) (l :: (w₁ ++ (w₂ ++ q :: (w₃ ++ r :: v)))) rest (Stmt.forLoop i c n s) := by
  refine .bind (u := [l]) (.symbolAfter hl) (.bind (forInitializer_reads hi (by omega)) ?_)
  refine .bind (expressionUnless_reads hc hq rfl rfl (by omega)) (.bind (u := [q]) (.symbolAfter hq) ?_)
  refine .bind (expressionUnless_reads hn hr rfl rfl (by omega)) (.bind (u := [r]) (.symbolAfter hr) h.giving)

def declarationRound (stop : Bool) (d : Parser (Option (Stmt Unit))) (done : Array (Stmt Unit)) :
    Parser (Array (Stmt Unit) ⊕ List (Stmt Unit)) := do
  if (← atEnd) || (stop && (← atSymbol .rightBrace)) then
    return .inr done.toList
  else
    match ← d with
    | some s => return .inl (done.push s)
    | none => return .inl done

theorem declarations_eq (stop : Bool) (d : Parser (Option (Stmt Unit))) :
    declarations fuel stop d = repeating (declarationRound stop d) fuel #[] := rfl

/-- A round reads one declaration and puts it behind those before it. -/
theorem declarationRound_reads {s : Stmt Unit} {stop : Bool} (h : Reads d w rest s) (hs : s.Spelled .declaration w)
    (done : Array (Stmt Unit)) :
    Reads (declarationRound stop (recovering d) done) w rest (.inl (done.push s)) := by
  obtain ⟨t, ts, ht, _, no_brace⟩ := hs.head
  have no_end : ∀ u ∈ (w ++ rest).head?, u.kind ≠ .symbol .rightBrace := by
    rw [ht]
    intro u hu
    cases hu
    exact no_brace
  have goes_on : (w ++ rest).isEmpty = false := by rw [ht]; rfl
  refine .bind (u := []) .atEnd (.bind (u := []) (.atSymbol_false no_end) ?_)
  rw [goes_on, Bool.and_false, Bool.or_false, if_neg Bool.false_ne_true]
  show Reads _ w rest _
  rw [← List.append_nil w]
  exact .bind (v := []) h.recovering .pure

/-- Declarations are read one after another. -/
theorem declarations_reads {parts : List (List Token × Stmt Unit)} {stop : Bool}
    (h : ∀ x ∈ parts, ∀ rest, NoElse rest → Reads d x.1 rest x.2)
    (hp : ∀ x ∈ parts, x.2.Spelled .declaration x.1) (hfuel : parts.length < fuel)
    (hr : rest = [] ∨ stop = true ∧ ∃ c ts, rest = c :: ts ∧ c.kind = .symbol .rightBrace) :
    Reads (declarations fuel stop (recovering d)) (parts.map Prod.fst).flatten rest (parts.map Prod.snd) := by
  have noElse : NoElse rest := by
    rcases hr with rfl | ⟨_, c, ts, rfl, hc⟩ <;> intro t ht
    · cases ht
    · cases ht
      simp [hc]
  rw [declarations_eq]
  refine Reads.collectLoop NoElse (fun items => ?_)
    (fun x hx items rest hrest => declarationRound_reads (h x hx rest hrest) (hp x hx) items)
    (fun x hx rest => (hp x hx).noElse rest) noElse #[] fuel hfuel
  rcases hr with rfl | ⟨rfl, c, ts, rfl, hc⟩
  · exact .bind (u := []) .atEnd (.bind (u := []) (.atSymbol_false (by simp)) .pure)
  · exact .bind (u := []) .atEnd (.bind (u := []) (.atSymbol_true hc) .pure)

theorem block_reads {parts : List (List Token × Stmt Unit)} {c : Token}
    (h : ∀ x ∈ parts, ∀ rest, NoElse rest → Reads d x.1 rest x.2)
    (hp : ∀ x ∈ parts, x.2.Spelled .declaration x.1) (hfuel : parts.length < fuel)
    (hc : c.kind = .symbol .rightBrace) :
    Reads (block fuel (recovering d)) ((parts.map Prod.fst).flatten ++ [c]) rest (parts.map Prod.snd) :=
  .bind (declarations_reads h hp hfuel (.inr ⟨rfl, c, rest, rfl, hc⟩)) (.bind (u := [c]) (.symbolAfter hc) .pure)

theorem parameters_reads {parts : List (List Token × Name)} {v : List Token} {c : Token}
    (hp : ∀ x ∈ parts, ∃ t, x.1 = [t] ∧ t.name? = some x.2) (commas : Commas (parts.map Prod.fst) v)
    (few : parts.length ≤ maxArguments) (hc : c.kind = .symbol .rightParen) (hfuel : v.length ≤ fuel) :
    Reads (parameters fuel) v (c :: rest) (parts.map Prod.snd) := by
  refine .listed (fun _ => True) (fun x hx r _ => ?_) (fun _ _ _ => trivial) (fun x hx r => ?_) commas few hc
    hfuel
  · obtain ⟨t, ht, hn⟩ := hp x hx
    rw [ht]
    exact .name hn
  · obtain ⟨t, ht, hn⟩ := hp x hx
    rw [ht]
    intro u hu
    cases hu
    simp [(Token.kind_of_name? hn).1]

/-- There are no more declarations than tokens. -/
theorem count_declarations {parts : List (List Token × Stmt Unit)}
    (hp : ∀ x ∈ parts, x.2.Spelled .declaration x.1) : parts.length ≤ (parts.map Prod.fst).flatten.length := by
  rw [← List.length_map Prod.fst]
  refine length_le_flatten fun w hw => ?_
  obtain ⟨x, hx, rfl⟩ := List.mem_map.1 hw
  exact (hp x hx).ne_nil

/-- Declarations inside a text of at most `n` tokens are read. -/
theorem ReadsDeclaration.parts {parts : List (List Token × Stmt Unit)} (hd : ReadsDeclaration n d)
    (hp : ∀ x ∈ parts, x.2.Spelled .declaration x.1) (hn : (parts.map Prod.fst).flatten.length ≤ n) :
    ∀ x ∈ parts, ∀ rest, NoElse rest → Reads d x.1 rest x.2 :=
  fun x hx rest => hd x.1 x.2 rest (Nat.le_trans (length_le_of_mem (List.mem_map_of_mem hx)) hn) (hp x hx)

theorem callable_reads {m : CallableText} {kind : CallableKind} (hd : ReadsDeclaration n d) (framed : m.Framed)
    (hp : ∀ x ∈ m.body, x.2.Spelled .declaration x.1) (hm : m.tokens.length ≤ n) (hfuel : n ≤ fuel) :
    Reads (callable fuel kind (block fuel (recovering d))) m.tokens rest m.decl := by
  have count := count_declarations hp
  obtain ⟨header, name, params, body, close⟩ := m
  obtain ⟨⟨hn, hl, hparams, commas, few, hr, hb⟩, hc⟩ := framed
  rename_i first l v r b params
  unfold CallableText.tokens at hm ⊢
  simp only [List.length_append, List.length_cons, List.length_nil] at hm hp count
  have inner : Reads (block fuel (recovering d)) ((body.map Prod.fst).flatten ++ [close]) rest (body.map Prod.snd) :=
    block_reads (hd.parts hp (by omega)) hp (by omega) hc
  have whole : Reads (callable fuel kind (block fuel (recovering d)))
      ([first] ++ ([l] ++ (v ++ ([r] ++ ([b] ++ ((body.map Prod.fst).flatten ++ [close])))))) rest
      (.mk name (params.map Prod.snd) (body.map Prod.snd)) :=
    .bind (.name hn) (.bind (.symbolAfter hl) (.bind (parameters_reads hparams commas few hr (by omega))
      (.bind (.symbolAfter hr) (.bind (.symbolBefore hb) inner.giving))))
  simpa [CallableText.decl] using whole

theorem superclass_reads {o : Option (Name × Unit)} (h : SuperclassSpelled w o)
    (hr : ∀ t ∈ rest.head?, t.kind ≠ .symbol .less) : Reads superclass w rest o := by
  cases h with
  | absent => exact .bind (u := []) (.symbol?_none hr) .pure
  | @present s n x hs hn => exact .bind (u := [s]) (.symbol?_some hs) (.bind (u := [n]) (.name hn) .pure)

theorem methods_reads {ms : List CallableText} {c : Token} (hd : ReadsDeclaration n d)
    (framed : ∀ m ∈ ms, m.Framed) (hp : ∀ m ∈ ms, ∀ x ∈ m.body, x.2.Spelled .declaration x.1)
    (hc : c.kind = .symbol .rightBrace) (hn : (ms.map CallableText.tokens).flatten.length ≤ n) (hfuel : n < fuel) :
    Reads (methods fuel (block fuel (recovering d))) (ms.map CallableText.tokens).flatten (c :: rest)
      (ms.map CallableText.decl) := by
  have count : ms.length ≤ (ms.map CallableText.tokens).flatten.length := by
    rw [← List.length_map CallableText.tokens]
    refine length_le_flatten fun w hw => ?_
    obtain ⟨m, _, rfl⟩ := List.mem_map.1 hw
    exact m.tokens_ne_nil
  have loop : Reads (methods fuel (block fuel (recovering d)))
      ((ms.map fun m => (m.tokens, m.decl)).map Prod.fst).flatten (c :: rest)
      ((#[] : Array (FunctionDecl Unit)).toList ++ (ms.map fun m => (m.tokens, m.decl)).map Prod.snd) := by
    refine Reads.collectLoop (fun _ => True) (fun items => ?_) (fun x hx items rest _ => ?_)
      (fun _ _ _ => trivial) trivial #[] fuel (by rw [List.length_map]; omega)
    · exact .bind (u := []) .atEnd (.bind (u := []) (.atSymbol_true hc) .pure)
    · obtain ⟨m, hm, rfl⟩ := List.mem_map.1 hx
      have size : m.tokens.length ≤ n := Nat.le_trans (length_le_of_mem (List.mem_map_of_mem hm)) hn
      have goes_on : (m.tokens ++ rest).isEmpty = false := by simp [m.tokens_ne_nil]
      refine .bind (u := []) (v := m.tokens) .atEnd ?_
      refine .bind (u := []) (v := m.tokens) (.atSymbol_false ((framed m hm).head_ne rest)) ?_
      rw [goes_on, Bool.or_false, if_neg Bool.false_ne_true]
      exact (callable_reads hd (framed m hm) (hp m hm) size (Nat.le_of_lt hfuel)).giving
  simpa [Function.comp_def] using loop

theorem classDeclaration_reads {ms : List CallableText} {m l r : Token} {x : Name} {o : Option (Name × Unit)}
    (hd : ReadsDeclaration n d) (hm : m.name? = some x) (ho : SuperclassSpelled w o)
    (hl : l.kind = .symbol .leftBrace) (framed : ∀ m ∈ ms, m.Framed)
    (hp : ∀ m ∈ ms, ∀ x ∈ m.body, x.2.Spelled .declaration x.1) (hr : r.kind = .symbol .rightBrace)
    (hn : (ms.map CallableText.tokens).flatten.length ≤ n) (hfuel : n < fuel) :
    Reads (classDeclaration fuel (block fuel (recovering d)))
      (m :: (w ++ l :: ((ms.map CallableText.tokens).flatten ++ [r]))) rest
      (.classDecl x o (ms.map CallableText.decl)) := by
  refine .bind (u := [m]) (.name hm) (.bind (superclass_reads ho (by simp [hl])) ?_)
  refine .bind (u := [l]) (.symbolBefore hl) (.bind (methods_reads hd framed hp hr hn hfuel) ?_)
  exact .bind (u := [r]) (.symbolAfter hr) .pure

theorem statement_reads (hp : 1 ≤ n → ReadsStatement (n - 1) (statement fuel))
    (hd : 1 ≤ n → ReadsDeclaration (n - 1) (declaration fuel)) (hfuel : 2 * n + 3 ≤ fuel) :
    ReadsStatement n (statement (fuel + 1)) := by
  intro dangling w s rest hw hs noElse
  cases hs with
  | @expression w e q he hq =>
      rw [List.length_append] at hw
      have whole : Reads (expressionStatement fuel) (w ++ [q]) rest (.expression e) :=
        expressionStatement_reads he hq (by omega)
      obtain ⟨t, ts, rfl, ht⟩ := he.starts
      refine Reads.front ?_
      dsimp only [List.cons_append]
      split
      case h_7 => exact whole
      all_goals
        rename_i hk
        rw [hk] at ht
        cases ht
  | print ht he hq =>
      rw [List.length_cons, List.length_append] at hw
      exact .frontNext (by dsimp only; rw [ht]) (printStatement_reads he hq (by omega))
  | ret ht ho hq =>
      rw [List.length_cons, List.length_append] at hw
      exact .frontNext (by dsimp only; rw [ht]) (returnStatement_reads ho hq (by omega))
  | block ht hparts hr =>
      have count := count_declarations hparts
      rw [List.length_cons, List.length_append] at hw
      have body := (hd (by omega)).parts hparts (by omega)
      exact .frontNext (by dsimp only; rw [ht]) (block_reads body hparts (by omega) hr).giving
  | loop ht hl he hr hs =>
      simp only [List.length_cons, List.length_append] at hw
      have body := hp (by omega) _ _ _ rest (by omega) hs noElse
      exact .frontNext (by dsimp only; rw [ht]) (whileStatement_reads hl he hr (by omega) body)
  | forLoop ht hl hi hc hq hinc hr hs =>
      simp only [List.length_cons, List.length_append] at hw
      have body := hp (by omega) _ _ _ rest (by omega) hs noElse
      exact .frontNext (by dsimp only; rw [ht]) (forStatement_reads hl hi hc hq hinc hr (by omega) body)
  | ite ht hl he hr hs =>
      simp only [List.length_cons, List.length_append] at hw
      have branch := hp (by omega) _ _ _ rest (by omega) hs fun _ => noElse rfl
      exact .frontNext (by dsimp only; rw [ht]) (ifStatement_reads hl he hr (by omega) branch (noElse rfl))
  | iteElse ht hl he hr hs hq hs' =>
      simp only [List.length_cons, List.length_append] at hw
      have branch := fun rest => hp (by omega) _ _ _ rest (by omega) hs nofun
      have other := hp (by omega) _ _ _ rest (by omega) hs' noElse
      exact .frontNext (by dsimp only; rw [ht]) (ifElseStatement_reads hl he hr (by omega) hq (branch _) other)

theorem declaration_reads (hp : ReadsStatement n (statement fuel))
    (hd : 1 ≤ n → ReadsDeclaration (n - 1) (declaration fuel)) (hfuel : 2 * n + 4 ≤ fuel) :
    ReadsDeclaration n (declaration (fuel + 1)) := by
  intro w s rest hw hs noElse
  cases hs with
  | var ht hv =>
      rw [List.length_cons] at hw
      exact .frontKindNext ht rfl (varDeclaration_reads hv (by omega))
  | function ht framed hparts =>
      rw [List.length_cons] at hw
      exact .frontKindNext ht rfl (callable_reads (hd (by omega)) framed hparts (by omega) (by omega)).giving
  | classDecl ht hn ho hl framed hparts hr =>
      simp only [List.length_cons, List.length_append] at hw
      have methods := hd (by omega)
      exact .frontKindNext ht rfl (classDeclaration_reads methods hn ho hl framed hparts hr (by omega) (by omega))
  | @statement _ _ dangling hs =>
      have whole := hp dangling w s rest hw hs fun _ => noElse
      obtain ⟨t, ts, rfl, ht⟩ := hs.statement_head
      refine Reads.frontKind ?_
      dsimp only [List.cons_append, List.head?_cons, Option.map_some]
      split
      case h_4 => exact whole
      all_goals
        next hk => exact absurd (Option.some.inj hk) (ht _ (by simp [Stmt.declarationWords]))

theorem statement_declaration_reads (fuel : Nat) :
    (∀ n, 2 * n + 4 ≤ fuel → ReadsStatement n (statement fuel)) ∧
      ∀ n, 2 * n + 5 ≤ fuel → ReadsDeclaration n (declaration fuel) := by
  induction fuel with
  | zero => exact ⟨fun n hn => by omega, fun n hn => by omega⟩
  | succ fuel ih =>
      refine ⟨fun n hn => ?_, fun n hn => ?_⟩
      · exact statement_reads (fun pos => ih.1 (n - 1) (by omega)) (fun pos => ih.2 (n - 1) (by omega)) (by omega)
      · exact declaration_reads (ih.1 n (by omega)) (fun pos => ih.2 (n - 1) (by omega)) (by omega)

/-- With the fuel for a whole text every one of its declarations is read. -/
theorem declaration_reads_parts {parts : List (List Token × Stmt Unit)}
    (hp : ∀ x ∈ parts, x.2.Spelled .declaration x.1) (hfuel : 4 * (parts.map Prod.fst).flatten.length + 4 ≤ fuel) :
    ∀ x ∈ parts, ∀ rest, NoElse rest → Reads (declaration fuel) x.1 rest x.2 := by
  have count := count_declarations hp
  rcases parts with _ | ⟨x, parts⟩
  · exact nofun
  · rw [List.length_cons] at count
    have all := (statement_declaration_reads fuel).2 ((x :: parts).map Prod.fst).flatten.length (by omega)
    exact all.parts hp (Nat.le_refl _)

end Statements

end Parser

/-- A program is read from the tokens that spell it. -/
theorem Stmts.Spelled.parse {ts : TokenList} {ss : List (Stmt Unit)} (h : Stmts.Spelled ts.tokens ss) :
    Stmt.parse ts = ⟨ss, []⟩ := by
  obtain ⟨parts, hparts, hw, rfl⟩ := h
  have count := Parser.count_declarations hparts
  have hfuel : ts.fuel = 4 * (parts.map Prod.fst).flatten.length + 4 := by rw [← hw]; rfl
  have reads := Parser.declaration_reads_parts hparts (Nat.le_of_eq hfuel.symm)
  have enough : parts.length < ts.fuel := by omega
  have read : Parser.Reads (Parser.program ts.fuel) (parts.map Prod.fst).flatten [] (parts.map Prod.snd) :=
    Parser.declarations_reads reads hparts enough (.inl rfl)
  unfold Stmt.parse Parser.run
  rw [read ⟨ts.tokens, ts.endLine, #[]⟩ (by simp [hw])]

end LoxScript
