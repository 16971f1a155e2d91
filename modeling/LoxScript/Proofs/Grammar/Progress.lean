import Mathlib.Order.Bounds.Defs
import LoxScript.Proofs.Grammar.Fuel
import LoxScript.Proofs.Grammar.Sound

/-!
# Reading goes on to the end

A parser never leaves the tokens that it was given, and a rejection names the token in front of which it stopped. From
there reading goes on with a later token, so that a text is read to its end whatever is wrong with it.
-/

namespace LoxScript

namespace ParseState

def errorHere (s : ParseState) (cause : SyntaxError) : Located SyntaxError :=
  match s.rest with
  | t :: _ => ⟨cause, t.line, .atLexeme t.lexeme⟩
  | [] => ⟨cause, s.endLine, .atEnd⟩

def reporting (s : ParseState) (cause : SyntaxError) : ParseState :=
  { s with errors := s.errors.push (s.errorHere cause) }

/-- Tokens are only read and errors are only added. -/
structure Leads (s s' : ParseState) : Prop where
  rest : s'.rest <:+ s.rest
  endLine : s'.endLine = s.endLine
  errors : s.errors.toList <+: s'.errors.toList

namespace Leads

variable {s s' s'' : ParseState}

theorem refl (s : ParseState) : Leads s s :=
  ⟨List.suffix_refl _, rfl, List.prefix_refl _⟩

theorem trans (h : Leads s s') (h' : Leads s' s'') : Leads s s'' :=
  ⟨h'.rest.trans h.rest, h'.endLine.trans h.endLine, h.errors.trans h'.errors⟩

theorem push (s : ParseState) (e : Located SyntaxError) : Leads s { s with errors := s.errors.push e } :=
  ⟨List.suffix_refl _, rfl, by simp⟩

theorem reporting (s : ParseState) (cause : SyntaxError) : Leads s (s.reporting cause) :=
  push s _

end Leads

end ParseState

namespace Parser

variable {α β : Type}

open ParseState (Leads)

/-! ## What a rejection names -/

/-- A result to which a parser can come from the state `s`. A rejection has just reported an error at the next token. -/
inductive Reached (s : ParseState) : EStateM.Result ParseFailure ParseState α → Prop where
  | ok {a s'} : Leads s s' → Reached s (.ok a s')
  | rejected {s'} (cause : SyntaxError) : Leads s s' → Reached s (.error .rejected (s'.reporting cause))
  | outOfFuel {s'} : Leads s s' → Reached s (.error .outOfFuel s')

theorem Reached.after {s s' : ParseState} {x : EStateM.Result ParseFailure ParseState α} (h : Reached s' x)
    (before : Leads s s') : Reached s x := by
  cases h with
  | ok after => exact .ok (before.trans after)
  | rejected cause after => exact .rejected cause (before.trans after)
  | outOfFuel after => exact .outOfFuel (before.trans after)

theorem Reached.bind {p : Parser α} {f : α → Parser β} {s : ParseState} (h : Reached s (p s))
    (hf : ∀ a s', Reached s' (f a s')) : Reached s ((p >>= f) s) := by
  show Reached s (EStateM.bind p f s)
  unfold EStateM.bind
  generalize p s = x at h
  cases h with
  | @ok a s' before => exact (hf a s').after before
  | rejected cause before => exact .rejected cause before
  | outOfFuel before => exact .outOfFuel before

theorem report_eq (cause : SyntaxError) (s : ParseState) : report cause s = .ok () (s.reporting cause) := by
  obtain ⟨rest, endLine, errors⟩ := s
  cases rest <;> rfl

theorem reject_eq (cause : SyntaxError) (s : ParseState) :
    (reject cause : Parser α) s = .error .rejected (s.reporting cause) := by
  show EStateM.bind (report cause) _ s = _
  unfold EStateM.bind
  rw [report_eq]
  rfl

theorem skipStatement_suffix (last : Token) (ts : List Token) : skipStatement last ts <:+ ts := by
  induction ts generalizing last with
  | nil => exact List.suffix_refl _
  | cons t ts ih =>
      unfold skipStatement
      split
      · exact List.suffix_refl _
      · exact (ih t).trans (List.suffix_cons t ts)

theorem synchronize_suffix (ts : List Token) : synchronize ts <:+ ts := by
  cases ts with
  | nil => exact List.suffix_refl _
  | cons t ts => exact (skipStatement_suffix t ts).trans (List.suffix_cons t ts)

/-- What holds of the steps holds of all parsers. -/
theorem Within.reached {p q : Parser α} (h : Within p q) (s : ParseState) : Reached s (p s) := by
  induction h generalizing s with
  | outOfFuel => exact .outOfFuel (.refl s)
  | pure => exact .ok (.refl s)
  | bind _ _ ih ihf => exact (ih s).bind ihf
  | remaining => exact .ok (.refl s)
  | advance => exact .ok ⟨List.tail_suffix _, rfl, List.prefix_refl _⟩
  | reportAt => exact .ok (.push s _)
  | report cause =>
      rw [report_eq]
      exact .ok (.reporting s cause)
  | reject cause =>
      rw [reject_eq]
      exact .rejected cause (.refl s)
  | @recovering _ p q _ ih =>
      have inner := ih s
      unfold Parser.recovering
      generalize p s = x at inner
      cases inner with
      | ok before => exact .ok before
      | rejected cause before =>
          have reported := before.trans (.reporting _ cause)
          exact .ok ⟨(synchronize_suffix _).trans reported.rest, reported.endLine, reported.errors⟩
      | outOfFuel before => exact .outOfFuel before

end Parser

/-! ## Places in a list of tokens -/

namespace TokenList

variable (ts : TokenList)

def after (i : Nat) (errors : Array (Located SyntaxError)) : ParseState :=
  ⟨ts.tokens.drop i, ts.endLine, errors⟩

def errorAt (i : Nat) (cause : SyntaxError) : Located SyntaxError :=
  match ts.tokens[i]? with
  | some t => ⟨cause, t.line, .atLexeme t.lexeme⟩
  | none => ⟨cause, ts.endLine, .atEnd⟩

/-- Whether reading may go on in front of token `j`: at the end of the text, behind a semicolon, or with a word that
begins a statement. -/
def ResumesAt (j : Nat) : Prop :=
  j = ts.tokens.length ∨ (∃ t, ts.tokens[j - 1]? = some t ∧ t.kind = .symbol .semicolon) ∨
    ∃ t, ts.tokens[j]? = some t ∧ t.startsStatement = true

variable {ts} {i j : Nat} {errors : Array (Located SyntaxError)}

theorem errorHere_after (cause : SyntaxError) : (ts.after i errors).errorHere cause = ts.errorAt i cause := by
  unfold ParseState.errorHere errorAt after
  rw [← List.head?_drop]
  cases ts.tokens.drop i <;> rfl

/-- What is led to is a place in the same list. -/
theorem exists_after_of_leads {s : ParseState} (hi : i ≤ ts.tokens.length) (h : (ts.after i errors).Leads s) :
    ∃ j errors', s = ts.after j errors' ∧ i ≤ j ∧ j ≤ ts.tokens.length ∧ errors.toList <+: errors'.toList := by
  obtain ⟨rest, endLine, errors'⟩ := s
  obtain ⟨suffix, same, more⟩ := h
  have taken := List.suffix_iff_eq_drop.1 suffix
  dsimp only [after] at taken same more
  rw [List.drop_drop] at taken
  refine ⟨i + ((ts.tokens.drop i).length - rest.length), errors', ?_, Nat.le_add_right _ _, ?_, more⟩
  · rw [same, after, ← taken]
  · rw [List.length_drop]
    omega

theorem resumesAt_iff {last t : Token} (hlast : ts.tokens[j - 1]? = some last) (ht : ts.tokens[j]? = some t) :
    ts.ResumesAt j ↔ (last.isSymbol .semicolon || t.startsStatement) = true := by
  obtain ⟨hj, -⟩ := List.getElem?_eq_some_iff.1 ht
  simp [ResumesAt, hlast, ht, Nat.ne_of_lt hj, Token.isSymbol]

/-- Tokens are skipped up to the first place where reading may go on. -/
theorem skipStatement_drop {last : Token} (hj : j ≤ ts.tokens.length) (hlast : ts.tokens[j - 1]? = some last) :
    ∃ k, Parser.skipStatement last (ts.tokens.drop j) = ts.tokens.drop k ∧ k ≤ ts.tokens.length ∧
      IsLeast {k | j ≤ k ∧ ts.ResumesAt k} k := by
  induction left : ts.tokens.length - j generalizing j last with
  | zero =>
      have ended : j = ts.tokens.length := by omega
      subst ended
      refine ⟨_, ?_, Nat.le_refl _, ⟨Nat.le_refl _, .inl rfl⟩, fun k hk => hk.1⟩
      rw [List.drop_length]
      rfl
  | succ n ih =>
      have inside : j < ts.tokens.length := by omega
      have here := resumesAt_iff hlast (List.getElem?_eq_getElem inside)
      rw [List.drop_eq_getElem_cons inside, Parser.skipStatement]
      split
      · next stop =>
          refine ⟨j, ?_, hj, ⟨Nat.le_refl j, here.2 stop⟩, fun k hk => hk.1⟩
          rw [List.drop_eq_getElem_cons inside]
      · next go =>
          obtain ⟨k, skipped, hk, least⟩ := ih (j := j + 1) inside (List.getElem?_eq_getElem inside) (by omega)
          refine ⟨k, skipped, hk, ⟨Nat.le_of_succ_le least.1.1, least.1.2⟩, fun m hm => least.2 ⟨?_, hm.2⟩⟩
          rcases Nat.lt_or_eq_of_le hm.1 with later | same
          · exact later
          · exact absurd (here.1 (same ▸ hm.2)) go

/-- Reading resumes at the first place behind the broken token where it may. -/
theorem synchronize_drop (hi : i < ts.tokens.length) : ∃ j, Parser.synchronize (ts.tokens.drop i) = ts.tokens.drop j ∧
    j ≤ ts.tokens.length ∧ IsLeast {j | i < j ∧ ts.ResumesAt j} j := by
  rw [List.drop_eq_getElem_cons hi]
  exact skipStatement_drop (j := i + 1) hi (List.getElem?_eq_getElem hi)

end TokenList

/-! ## Ends -/

namespace Parser

open ParseState (Leads)

variable {α : Type}

def lastState : EStateM.Result ParseFailure ParseState α → ParseState
  | .ok _ s | .error _ s => s

theorem Reached.leads {s : ParseState} {x : EStateM.Result ParseFailure ParseState α} (h : Reached s x) :
    Leads s (lastState x) := by
  cases h with
  | ok leads => exact leads
  | rejected cause leads => exact leads.trans (.reporting _ cause)
  | outOfFuel leads => exact leads

theorem Found.not_ranOut {k : α → Nat} {Q : List Token → List Token → α → Prop} {s : ParseState}
    {x : EStateM.Result ParseFailure ParseState α} (h : Found k Q s x) : ¬ RanOut x := by
  rintro ⟨s', rfl⟩
  cases h

/-- Nothing is rejected where there is a recovery. -/
theorem recovering_ends (p : Parser α) (s : ParseState) :
    RanOut (recovering p s) ∨ ∃ o s', recovering p s = .ok o s' := by
  unfold recovering
  split
  · exact .inr ⟨_, _, rfl⟩
  · exact .inr ⟨_, _, rfl⟩
  · exact .inl ⟨_, rfl⟩

/-- Declarations that no brace ends are read up to the end of the text. -/
theorem declarations_ends (fuel : Nat) (p : Parser (Stmt Unit)) (s : ParseState) :
    RanOut (declarations fuel false (recovering p) s) ∨
      ∃ ss s', declarations fuel false (recovering p) s = .ok ss s' ∧ s'.rest = [] := by
  unfold declarations
  generalize #[] = done
  induction fuel generalizing done s with
  | zero => exact .inl ⟨s, rfl⟩
  | succ fuel ih =>
      obtain ⟨rest, endLine, errors⟩ := s
      cases rest with
      | nil => exact .inr ⟨done.toList, _, rfl, rfl⟩
      | cons t ts =>
          -- the round is the recovering parser, and what it gives decides with what the loop goes on
          rcases recovering_ends p ⟨t :: ts, endLine, errors⟩ with ⟨s', broken⟩ | ⟨o, s', found⟩
          · refine .inl ⟨s', ?_⟩
            show EStateM.bind (EStateM.bind (recovering p) _) _ _ = _
            simp only [EStateM.bind, broken]
          · show RanOut (EStateM.bind (EStateM.bind (recovering p) _) _ _) ∨
              ∃ ss s', EStateM.bind (EStateM.bind (recovering p) _) _ _ = .ok ss s' ∧ s'.rest = []
            simp only [EStateM.bind, found]
            cases o with
            | some a => exact ih s' (done.push a)
            | none => exact ih s' done

theorem wholeExpression_ends {fuel : Nat} {s s' : ParseState} {e : Expr Unit}
    (h : wholeExpression fuel s = .ok e s') : s'.rest = [] := by
  change EStateM.bind (expression fuel) _ s = _ at h
  unfold EStateM.bind at h
  split at h
  · next e' s₁ _ =>
      obtain ⟨rest, endLine, errors⟩ := s₁
      cases rest with
      | nil =>
          cases h
          rfl
      | cons t ts =>
          have rejected := reject_eq (α := Expr Unit) .noEndOfExpression ⟨t :: ts, endLine, errors⟩
          exact absurd (rejected.symm.trans h) nofun
  · cases h

theorem map_eq {β : Type} (f : α → β) (p : Parser α) (s : ParseState) : (f <$> p) s =
    match p s with
    | .ok a s => .ok (f a) s
    | .error e s => .error e s := by
  show EStateM.map f p s = _
  unfold EStateM.map
  cases p s <;> rfl

theorem run_of_ok {p : Parser α} {ts : TokenList} {a : α} {s : ParseState} (h : p (ts.after 0 #[]) = .ok a s)
    (fallback : α) : run p fallback ts = ⟨a, s.errors.toList⟩ := by
  have from_start : p ⟨ts.tokens, ts.endLine, #[]⟩ = .ok a s := h
  rw [run, from_start]

theorem run_of_error {p : Parser α} {ts : TokenList} {f : ParseFailure} {s : ParseState}
    (h : p (ts.after 0 #[]) = .error f s) (fallback : α) : run p fallback ts = ⟨fallback, s.errors.toList⟩ := by
  have from_start : p ⟨ts.tokens, ts.endLine, #[]⟩ = .error f s := h
  rw [run, from_start]

/-- More fuel than a parser needs does not change its result. -/
theorem Within.eq_of_not_ranOut {p q : Parser α} {s : ParseState} (h : Within p q) (finished : ¬ RanOut (p s)) :
    q s = p s :=
  ((h.ranOut_or_eq s).resolve_left finished).symm

end Parser

namespace TokenList

variable (ts : TokenList)

/-- A program is read to the end of the text, with any fuel that suffices. -/
def EndsProgram : Prop :=
  ∃ errors, errors.toList = (Stmt.parse ts).errors ∧ ∀ fuel, ts.fuel ≤ fuel →
    Parser.program fuel (ts.after 0 #[]) = .ok (Stmt.parse ts).value (ts.after ts.tokens.length errors)

/-- An expression is read to the end of the text, or rejected somewhere in it. -/
def EndsExpression : Prop :=
  ∃ result, (∀ fuel, ts.fuel ≤ fuel → Parser.wholeExpression fuel (ts.after 0 #[]) = result) ∧
    ((∃ e errors, result = .ok e (ts.after ts.tokens.length errors) ∧ Expr.parse? ts = ⟨some e, errors.toList⟩) ∨
      ∃ i errors, i ≤ ts.tokens.length ∧ result = .error .rejected (ts.after i errors) ∧
        Expr.parse? ts = ⟨none, errors.toList⟩)

/-- Wherever a parser has come to, it goes neither back nor beyond the end of the text, on any fuel. -/
def StaysInside : Prop :=
  ∀ i errors fuel, i ≤ ts.tokens.length →
    ∀ s ∈ [Parser.lastState (Parser.expression fuel (ts.after i errors)),
      Parser.lastState (Parser.statement fuel (ts.after i errors)),
      Parser.lastState (Parser.declaration fuel (ts.after i errors))],
    ∃ j errors', s = ts.after j errors' ∧ i ≤ j ∧ j ≤ ts.tokens.length

/-- From any token on a declaration, be it broken or not, takes at least one token. -/
def Advances : Prop :=
  ∀ i errors, i < ts.tokens.length → ∃ o j errors', i < j ∧ j ≤ ts.tokens.length ∧
    (∀ fuel, ts.fuel ≤ fuel →
      Parser.recovering (Parser.declaration fuel) (ts.after i errors) = .ok o (ts.after j errors')) ∧
    ∀ fuel, Parser.RanOut (Parser.recovering (Parser.declaration fuel) (ts.after i errors)) ∨
      Parser.recovering (Parser.declaration fuel) (ts.after i errors) = .ok o (ts.after j errors')

/-- A broken declaration ends with an error at some token `k`, and reading resumes at the first place behind that token
where it may. If the error is at the end of the text, reading stays there. -/
def Resumes : Prop :=
  ∀ i errors fuel s, i ≤ ts.tokens.length → Parser.declaration fuel (ts.after i errors) = .error .rejected s →
    ∃ (k : Nat) (cause : SyntaxError) (errors' : Array (Located SyntaxError)),
      i ≤ k ∧ k ≤ ts.tokens.length ∧ errors.toList <+: errors'.toList ∧
      s = ts.after k (errors'.push (ts.errorAt k cause)) ∧
      ∃ j, Parser.recovering (Parser.declaration fuel) (ts.after i errors) =
          .ok none (ts.after j (errors'.push (ts.errorAt k cause))) ∧
        (k = ts.tokens.length → j = k) ∧
        (k < ts.tokens.length → j ≤ ts.tokens.length ∧ IsLeast {j | k < j ∧ ts.ResumesAt j} j)

theorem endsProgram : ts.EndsProgram := by
  have enough : 2 * ts.tokens.length + 5 ≤ ts.fuel ∨ ts.tokens.length = 0 ∧ 0 < ts.fuel := by
    unfold fuel
    omega
  have finished := (Parser.program_spells enough (ts.after 0 #[]) (Nat.le_refl _)).not_ranOut
  rcases Parser.declarations_ends ts.fuel (Parser.declaration ts.fuel) (ts.after 0 #[]) with out | ⟨ss, s, ended, done⟩
  · exact absurd out finished
  · have leads := ((Parser.Within.program (Nat.le_refl ts.fuel)).reached (ts.after 0 #[])).leads
    have program : Parser.program ts.fuel (ts.after 0 #[]) = .ok ss s := ended
    obtain ⟨rest, endLine, errors⟩ := s
    have same : endLine = ts.endLine := by
      rw [program] at leads
      exact leads.endLine
    have parsed : Stmt.parse ts = ⟨ss, errors.toList⟩ := Parser.run_of_ok program []
    have state : (⟨rest, endLine, errors⟩ : ParseState) = ts.after ts.tokens.length errors := by
      dsimp only at done
      rw [done, same, after, List.drop_length]
    refine ⟨errors, by rw [parsed], fun fuel more => ?_⟩
    rw [(Parser.Within.program more).eq_of_not_ranOut finished, program, parsed, state]

theorem endsExpression : ts.EndsExpression := by
  have enough : 2 * ts.tokens.length + 3 ≤ ts.fuel := by
    unfold fuel
    omega
  have finished := (Parser.wholeExpression_spells enough (ts.after 0 #[]) (Nat.le_refl _)).not_ranOut
  have reached := (Parser.Within.wholeExpression (Nat.le_refl ts.fuel)).reached (ts.after 0 #[])
  refine ⟨_, fun fuel more => (Parser.Within.wholeExpression more).eq_of_not_ranOut finished, ?_⟩
  cases read : Parser.wholeExpression ts.fuel (ts.after 0 #[]) with
  | ok e s =>
      have ended := Parser.wholeExpression_ends read
      rw [read] at reached
      obtain ⟨j, errors, rfl, -, inside, -⟩ := exists_after_of_leads (Nat.zero_le _) reached.leads
      have last : j = ts.tokens.length := by
        have := List.drop_eq_nil_iff.1 ended
        omega
      subst last
      have given : (some <$> Parser.wholeExpression ts.fuel) (ts.after 0 #[]) =
          .ok (some e) (ts.after ts.tokens.length errors) := by
        rw [Parser.map_eq, read]
      exact .inl ⟨e, errors, rfl, Parser.run_of_ok given none⟩
  | error f s =>
      rw [read] at reached finished
      obtain ⟨j, errors, rfl, -, inside, -⟩ := exists_after_of_leads (Nat.zero_le _) reached.leads
      cases f with
      | rejected =>
          have given : (some <$> Parser.wholeExpression ts.fuel) (ts.after 0 #[]) =
              .error .rejected (ts.after j errors) := by
            rw [Parser.map_eq, read]
          exact .inr ⟨j, errors, inside, rfl, Parser.run_of_error given none⟩
      | outOfFuel => exact absurd ⟨_, rfl⟩ finished

theorem inside_of_reached {α : Type} {i : Nat} {errors : Array (Located SyntaxError)}
    {x : EStateM.Result ParseFailure ParseState α} (hi : i ≤ ts.tokens.length)
    (h : Parser.Reached (ts.after i errors) x) :
    ∃ j errors', Parser.lastState x = ts.after j errors' ∧ i ≤ j ∧ j ≤ ts.tokens.length := by
  obtain ⟨j, errors', same, hij, hj, -⟩ := exists_after_of_leads hi h.leads
  exact ⟨j, errors', same, hij, hj⟩

theorem staysInside : ts.StaysInside := by
  intro i errors fuel hi
  have enough := Nat.le_refl fuel
  refine List.forall_mem_cons.2 ⟨ts.inside_of_reached hi ((Parser.Within.expression enough).reached _), ?_⟩
  refine List.forall_mem_cons.2 ⟨ts.inside_of_reached hi ((Parser.Within.statement enough).reached _), ?_⟩
  exact List.forall_mem_singleton.2 (ts.inside_of_reached hi ((Parser.Within.declaration enough).reached _))

theorem advances : ts.Advances := by
  intro i errors hi
  have left : (ts.after i errors).rest.length ≤ ts.tokens.length := by
    rw [after, List.length_drop]
    omega
  have enough : 2 * ts.tokens.length + 5 ≤ ts.fuel := by
    unfold fuel
    omega
  have found := Parser.Finds.recovering ((Parser.statement_declaration_spells ts.fuel).2 _ enough)
    (ts.after i errors) (List.drop_eq_getElem_cons hi) left
  have within := Parser.Within.recovering (Parser.Within.declaration (Nat.le_refl ts.fuel))
  have reached := within.reached (ts.after i errors)
  obtain out | ⟨o, s, read⟩ := Parser.recovering_ends (Parser.declaration ts.fuel) (ts.after i errors)
  · exact absurd out found.not_ranOut
  · have finished := found.not_ranOut
    rw [read] at reached found
    obtain ⟨j, errors', rfl, -, hj, -⟩ := exists_after_of_leads (Nat.le_of_lt hi) reached.leads
    refine ⟨o, j, errors', ?_, hj, fun fuel more => ?_, fun fuel => ?_⟩
    · have shorter : (ts.after j errors').rest.length < (ts.after i errors).rest.length := by
        cases found with
        | quiet hw hl | noisy hw hl =>
            rw [hw, List.length_append]
            omega
      simp only [after, List.length_drop] at shorter
      omega
    · rw [(Parser.Within.recovering (Parser.Within.declaration more)).eq_of_not_ranOut finished, read]
    · rcases Nat.le_total fuel ts.fuel with less | more
      · have := (Parser.Within.recovering (Parser.Within.declaration less)).ranOut_or_eq (ts.after i errors)
        rwa [read] at this
      · rw [(Parser.Within.recovering (Parser.Within.declaration more)).eq_of_not_ranOut finished, read]
        exact .inr rfl

theorem resumes : ts.Resumes := by
  intro i errors fuel s hi broken
  have reached := (Parser.Within.declaration (Nat.le_refl fuel)).reached (ts.after i errors)
  rw [broken] at reached
  cases reached with
  | rejected cause leads =>
      obtain ⟨k, errors', rfl, hik, hk, more⟩ := exists_after_of_leads hi leads
      have state : (ts.after k errors').reporting cause = ts.after k (errors'.push (ts.errorAt k cause)) := by
        rw [ParseState.reporting, errorHere_after]
        rfl
      have recovered : Parser.recovering (Parser.declaration fuel) (ts.after i errors) =
          .ok none { ts.after k (errors'.push (ts.errorAt k cause)) with
            rest := Parser.synchronize (ts.tokens.drop k) } := by
        rw [Parser.recovering, broken, state]
        rfl
      refine ⟨k, cause, errors', hik, hk, more, state, ?_⟩
      rcases Nat.lt_or_eq_of_le hk with before | last
      · obtain ⟨j, resumed, hj, least⟩ := synchronize_drop before
        refine ⟨j, ?_, fun last => absurd last (Nat.ne_of_lt before), fun _ => ⟨hj, least⟩⟩
        rw [recovered, resumed]
        rfl
      · refine ⟨k, ?_, fun _ => rfl, fun before => absurd last (Nat.ne_of_lt before)⟩
        rw [recovered, last, List.drop_length]
        simp [after, Parser.synchronize]

/-- Reading comes to the end of the text whatever is wrong with it, and never leaves it on the way. -/
theorem parse_progress :
    ts.EndsProgram ∧ ts.EndsExpression ∧ ts.StaysInside ∧ ts.Advances ∧ ts.Resumes :=
  ⟨ts.endsProgram, ts.endsExpression, ts.staysInside, ts.advances, ts.resumes⟩

end TokenList

end LoxScript
