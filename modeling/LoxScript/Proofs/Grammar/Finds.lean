import LoxScript.Proofs.Grammar.Spelled

/-!
# What parsers find

`Finds n k p Q` says of a parser on at most `n` tokens that it has fuel enough, that it reads at least as many
tokens as `k` asks for, that it gives up only with an error, and that it knows `Q` of what it read if it noticed no
error. There is one law for each way to compose parsers.
-/

namespace LoxScript

namespace Parser

variable {α β σ : Type}

inductive Found (k : α → Nat) (Q : List Token → List Token → α → Prop) (s : ParseState) :
    EStateM.Result ParseFailure ParseState α → Prop where
  | quiet {a s' w} : s.rest = w ++ s'.rest → k a ≤ w.length → s'.errors = s.errors → Q w s'.rest a →
      Found k Q s (.ok a s')
  | noisy {a s' w} : s.rest = w ++ s'.rest → k a ≤ w.length → s.errors.size < s'.errors.size →
      Found k Q s (.ok a s')
  | rejected {s' w} : s.rest = w ++ s'.rest → s.errors.size < s'.errors.size →
      Found k Q s (.error .rejected s')

/-- What a parser finds on at most `n` tokens. `Q` speaks of the tokens read, those left, and the value. -/
def Finds (n : Nat) (k : α → Nat) (p : Parser α) (Q : List Token → List Token → α → Prop) : Prop :=
  ∀ s : ParseState, s.rest.length ≤ n → Found k Q s (p s)

def FindsAt (t : Token) (ts : List Token) (n : Nat) (k : α → Nat) (p : Parser α)
    (Q : List Token → List Token → α → Prop) : Prop :=
  ∀ s : ParseState, s.rest = t :: ts → s.rest.length ≤ n → Found k Q s (p s)

namespace Found

variable {k k' : α → Nat} {Q Q' : List Token → List Token → α → Prop} {s : ParseState}
  {x : EStateM.Result ParseFailure ParseState α}

theorem mono (h : Found k Q s x) (hk : ∀ a, k' a ≤ k a) (hQ : ∀ w r a, s.rest = w ++ r → Q w r a → Q' w r a) :
    Found k' Q' s x := by
  cases h with
  | quiet hw hl he hq => exact .quiet hw (Nat.le_trans (hk _) hl) he (hQ _ _ _ hw hq)
  | noisy hw hl he => exact .noisy hw (Nat.le_trans (hk _) hl) he
  | rejected hw he => exact .rejected hw he

/-- What is found behind tokens that have been read already. -/
theorem behind {s₀ : ParseState} {u : List Token} (hs : s₀.rest = u ++ s.rest) (he : s.errors = s₀.errors)
    (h : Found (fun a => k a - u.length) (fun w => Q (u ++ w)) s x) : Found k Q s₀ x := by
  cases h with
  | @quiet a s' w hw hl he' hq =>
      refine .quiet (w := u ++ w) (by rw [hs, hw, List.append_assoc]) ?_ (he'.trans he) hq
      rw [List.length_append]
      omega
  | @noisy a s' w hw hl he' =>
      refine .noisy (w := u ++ w) (by rw [hs, hw, List.append_assoc]) ?_ (he ▸ he')
      rw [List.length_append]
      omega
  | @rejected s' w hw he' =>
      exact .rejected (w := u ++ w) (by rw [hs, hw, List.append_assoc]) (he ▸ he')

/-- After an error the value is not vouched for. -/
theorem afterError {s₀ : ParseState} {u : List Token} {k₀ : α → Nat} (hs : s₀.rest = u ++ s.rest)
    (hk : ∀ a, k a ≤ u.length + k₀ a) (he : s₀.errors.size < s.errors.size) (h : Found k₀ Q' s x) :
    Found k Q s₀ x := by
  cases h with
  | @quiet a s' w hw hl he' _ =>
      refine .noisy (w := u ++ w) (by rw [hs, hw, List.append_assoc]) ?_ (he' ▸ he)
      have := hk a
      rw [List.length_append]
      omega
  | @noisy a s' w hw hl he' =>
      refine .noisy (w := u ++ w) (by rw [hs, hw, List.append_assoc]) ?_ (Nat.lt_trans he he')
      have := hk a
      rw [List.length_append]
      omega
  | @rejected s' w hw he' =>
      exact .rejected (w := u ++ w) (by rw [hs, hw, List.append_assoc]) (Nat.lt_trans he he')

theorem bind {n : Nat} {p : Parser α} {k₂ : β → Nat} {f : α → Parser β}
    {Q₂ : α → List Token → List Token → β → Prop} (h : Found k Q s (p s)) (hs : s.rest.length ≤ n)
    (hf : ∀ a, k a ≤ n → Finds (n - k a) (fun b => k₂ b - k a) (f a) (Q₂ a)) :
    Found k₂ (fun w r b => ∃ u v a, w = u ++ v ∧ Q u (v ++ r) a ∧ Q₂ a v r b) s ((p >>= f) s) := by
  show Found _ _ s (EStateM.bind p f s)
  unfold EStateM.bind
  cases hp : p s with
  | error f s' =>
      rw [hp] at h
      cases h with
      | rejected hw he => exact .rejected hw he
  | ok a s' =>
      rw [hp] at h
      have within : ∀ u, s.rest = u ++ s'.rest → k a ≤ u.length → k a ≤ n ∧ s'.rest.length ≤ n - k a := by
        intro u hu hk
        rw [hu, List.length_append] at hs
        omega
      cases h with
      | @quiet _ _ u hu hk he hq =>
          obtain ⟨hn, hl⟩ := within u hu hk
          refine .behind hu he ((hf a hn s' hl).mono (fun b => ?_) ?_)
          · show k₂ b - u.length ≤ k₂ b - k a
            omega
          · intro v r b hv hb
            exact ⟨u, v, a, rfl, hv ▸ hq, hb⟩
      | @noisy _ _ u hu hk he =>
          obtain ⟨hn, hl⟩ := within u hu hk
          refine .afterError hu (fun b => ?_) he (hf a hn s' hl)
          show k₂ b ≤ u.length + (k₂ b - k a)
          omega

end Found

namespace Finds

variable {n m : Nat} {k k' : α → Nat} {p : Parser α} {Q Q' : List Token → List Token → α → Prop}

theorem mono (h : Finds n k p Q) (hk : ∀ a, k' a ≤ k a) (hQ : ∀ w r a, Q w r a → Q' w r a) : Finds n k' p Q' :=
  fun s hs => (h s hs).mono hk fun w r a _ => hQ w r a

theorem fewer (h : Finds n k p Q) (hm : m ≤ n) : Finds m k p Q :=
  fun s hs => h s (Nat.le_trans hs hm)

theorem pure {a : α} (hk : k a = 0) (h : ∀ r, Q [] r a) : Finds n k (Pure.pure a) Q :=
  fun s _ => .quiet (w := []) rfl (by simp [hk]) rfl (h s.rest)

/-- Two parsers one after another. What the second one has to read is what the first one left undone. -/
theorem bind {k₂ : β → Nat} {f : α → Parser β} {Q₂ : α → List Token → List Token → β → Prop}
    (h : Finds n k p Q) (hf : ∀ a, k a ≤ n → Finds (n - k a) (fun b => k₂ b - k a) (f a) (Q₂ a)) :
    Finds n k₂ (p >>= f) fun w r b => ∃ u v a, w = u ++ v ∧ Q u (v ++ r) a ∧ Q₂ a v r b :=
  fun s hs => (h s hs).bind hs hf

/-- `bind` with the conclusion in the form that is wanted. -/
theorem andThen {k₂ : β → Nat} {f : α → Parser β} {Q₂ : List Token → List Token → β → Prop}
    (h : Finds n k p Q)
    (hf : ∀ a, k a ≤ n →
      Finds (n - k a) (fun b => k₂ b - k a) (f a) fun v r b => ∀ u, Q u (v ++ r) a → Q₂ (u ++ v) r b) :
    Finds n k₂ (p >>= f) Q₂ :=
  (h.bind hf).mono (fun _ => Nat.le_refl _) fun _ _ _ ⟨u, _, _, hw, hq, hq₂⟩ => hw ▸ hq₂ u hq

theorem map {f : α → β} (h : Finds n k p Q) :
    Finds n (fun _ => 0) (f <$> p) fun w r b => ∃ a, b = f a ∧ Q w r a := by
  have composed : f <$> p = p >>= fun a => Pure.pure (f a) := (bind_pure_comp f p).symm
  rw [composed]
  refine h.andThen fun a _ => pure (by simp) fun r u hq => ⟨a, rfl, ?_⟩
  simpa using hq

/-! ## Single tokens -/

theorem atSymbol (s : Symbol) : Finds n (fun _ => 0) (atSymbol s) fun w r b =>
    w = [] ∧ (b = true ↔ ∃ t ts, r = t :: ts ∧ t.kind = .symbol s) := by
  rintro ⟨rest, endLine, errors⟩ _
  refine .quiet (w := []) rfl (by simp) rfl ⟨rfl, ?_⟩
  cases rest <;> simp

theorem atEnd : Finds n (fun _ => 0) atEnd fun w r b => w = [] ∧ (b = true ↔ r = []) := by
  rintro ⟨rest, endLine, errors⟩ _
  refine .quiet (w := []) rfl (by simp) rfl ⟨rfl, ?_⟩
  cases rest <;> simp

theorem report (cause : SyntaxError) : Finds n (fun _ => 0) (report cause) fun _ _ _ => False := by
  rintro ⟨rest, endLine, errors⟩ _
  cases rest with
  | nil =>
      show Found _ _ _ (.ok () ⟨[], endLine, errors.push ⟨cause, endLine, .atEnd⟩⟩)
      exact .noisy (w := []) rfl (by simp) (by simp)
  | cons t ts =>
      show Found _ _ _ (.ok () ⟨t :: ts, endLine, errors.push ⟨cause, t.line, .atLexeme t.lexeme⟩⟩)
      exact .noisy (w := []) rfl (by simp) (by simp)

theorem reportAt (t : Token) (cause : SyntaxError) :
    Finds n (fun _ => 0) (reportAt t cause) fun _ _ _ => False :=
  fun _ _ => .noisy (w := []) rfl (by simp) (by simp)

theorem reject {cause : SyntaxError} : Finds n k (Parser.reject cause : Parser α) Q := by
  intro s hs
  have reported := report (n := n) cause s hs
  show Found k Q s (EStateM.bind (Parser.report cause) _ s)
  unfold EStateM.bind
  cases hr : Parser.report cause s with
  | error f s' =>
      rw [hr] at reported
      cases reported with
      | rejected hw he => exact .rejected hw he
  | ok u s' =>
      rw [hr] at reported
      cases reported with
      | quiet _ _ _ hq => exact hq.elim
      | noisy hw _ he => exact .rejected hw he

theorem remaining_bind (g : List Token → Parser α) (s : ParseState) :
    (Parser.remaining >>= g) s = g s.rest s := rfl

/-- A token is read if and only if there is a use for it. -/
theorem accept? (f : Token → Option α) : Finds n (fun o => if o.isSome then 1 else 0) (accept? f) fun w r o =>
    (o = none ∧ w = [] ∧ ∀ t ∈ r.head?, f t = none) ∨ ∃ t a, o = some a ∧ w = [t] ∧ f t = some a := by
  intro s _
  obtain ⟨rest, endLine, errors⟩ := s
  unfold Parser.accept?
  rw [remaining_bind]
  cases rest with
  | nil => exact .quiet (w := []) rfl (by simp) rfl (.inl ⟨rfl, rfl, by simp⟩)
  | cons t ts =>
      dsimp only
      cases hf : f t with
      | none =>
          show Found _ _ _ (.ok none ⟨t :: ts, endLine, errors⟩)
          exact .quiet (w := []) rfl (by simp) rfl (.inl ⟨rfl, rfl, by simp [hf]⟩)
      | some a =>
          show Found _ _ _ (.ok (some a) ⟨ts, endLine, errors⟩)
          exact .quiet (w := [t]) rfl (by simp) rfl (.inr ⟨t, a, rfl, rfl, hf⟩)

theorem symbol? (s : Symbol) : Finds n (fun o => if o.isSome then 1 else 0) (symbol? s) fun w r o =>
    (o = none ∧ w = [] ∧ ∀ t ∈ r.head?, t.kind ≠ .symbol s) ∨
      ∃ t, o = some t ∧ w = [t] ∧ t.kind = .symbol s := by
  refine (accept? _).mono (fun _ => Nat.le_refl _) fun w r o h => ?_
  rcases h with ⟨ho, hw, hr⟩ | ⟨t, a, ho, hw, ht⟩
  · refine .inl ⟨ho, hw, fun t ht hk => ?_⟩
    have := hr t ht
    simp [Token.isSymbol, hk] at this
  · refine .inr ⟨t, ?_, hw, ?_⟩
    · split at ht <;> simp_all
    · split at ht
      · next hs => simpa [Token.isSymbol] using hs
      · cases ht

/-- The reserved word `k` is read if it comes next. -/
theorem keyword? (k : Keyword) : Finds n (fun o => if o.isSome then 1 else 0)
    (Parser.accept? fun t => if t.isKeyword k then some () else none) fun w r o =>
    (o = none ∧ w = [] ∧ ∀ t ∈ r.head?, t.kind ≠ .keyword k) ∨
      ∃ t, o = some () ∧ w = [t] ∧ t.kind = .keyword k := by
  refine (accept? _).mono (fun _ => Nat.le_refl _) fun w r o h => ?_
  rcases h with ⟨ho, hw, hr⟩ | ⟨t, a, ho, hw, ht⟩
  · refine .inl ⟨ho, hw, fun t ht hk => ?_⟩
    have := hr t ht
    simp [Token.isKeyword, hk] at this
  · refine .inr ⟨t, ho, hw, ?_⟩
    split at ht
    · next hs => simpa [Token.isKeyword] using hs
    · cases ht

theorem symbol (s : Symbol) (cause : SyntaxError) :
    Finds n (fun _ => 1) (symbol s cause) fun w _ t => w = [t] ∧ t.kind = .symbol s := by
  refine (symbol? s).andThen fun o _ => ?_
  cases o with
  | none => exact reject
  | some t =>
      refine pure (by simp) fun r u hu => ?_
      rcases hu with ⟨ho, _⟩ | ⟨t', ho, hw, ht⟩
      · cases ho
      · cases ho
        exact ⟨by simp [hw], ht⟩

theorem symbolAfter (s : Symbol) (clause : Clause) :
    Finds n (fun _ => 1) (symbolAfter s clause) fun w _ t => w = [t] ∧ t.kind = .symbol s :=
  symbol s _

theorem symbolBefore (s : Symbol) (clause : Clause) :
    Finds n (fun _ => 1) (symbolBefore s clause) fun w _ t => w = [t] ∧ t.kind = .symbol s :=
  symbol s _

theorem name (role : NameRole) :
    Finds n (fun _ => 1) (name role) fun w _ x => ∃ t, w = [t] ∧ t.name? = some x := by
  refine (accept? _).andThen fun o _ => ?_
  cases o with
  | none => exact reject
  | some x =>
      refine pure (by simp) fun r u hu => ?_
      rcases hu with ⟨ho, _⟩ | ⟨t, a, ho, hw, ht⟩
      · cases ho
      · cases ho
        exact ⟨t, by simp [hw], ht⟩

/-- A parser that looks at the next token first. -/
theorem front {g : List Token → Parser α} (hnil : Finds 0 k (g []) Q)
    (hcons : ∀ t ts, 1 ≤ n → FindsAt t ts n k (g (t :: ts)) Q) : Finds n k (Parser.remaining >>= g) Q := by
  intro s hs
  rw [remaining_bind]
  cases hr : s.rest with
  | nil => exact hnil s (by simp [hr])
  | cons t ts =>
      have pos : 1 ≤ n := by
        rw [hr, List.length_cons] at hs
        omega
      exact hcons t ts pos s hr hs

theorem frontKind {g : Option Token.Kind → Parser α} (hnil : Finds 0 k (g none) Q)
    (hcons : ∀ t ts, 1 ≤ n → FindsAt t ts n k (g (some t.kind)) Q) : Finds n k (Parser.nextKind? >>= g) Q :=
  front (g := fun ts => g (ts.head?.map Token.kind)) hnil hcons

end Finds

namespace FindsAt

variable {n : Nat} {k : α → Nat} {p : Parser α} {Q : List Token → List Token → α → Prop} {t : Token} {ts : List Token}

theorem of (h : Finds n k p Q) : FindsAt t ts n k p Q :=
  fun s _ hs => h s hs

theorem andThen {k₂ : β → Nat} {f : α → Parser β}
    {Q₂ : List Token → List Token → β → Prop} (h : FindsAt t ts n k p Q)
    (hf : ∀ a, k a ≤ n →
      Finds (n - k a) (fun b => k₂ b - k a) (f a) fun v r b => ∀ u, Q u (v ++ r) a → Q₂ (u ++ v) r b) :
    FindsAt t ts n k₂ (p >>= f) Q₂ :=
  fun s hr hs => ((h s hr hs).bind hs hf).mono (fun _ => Nat.le_refl _)
    fun _ _ _ _ ⟨u, _, _, hw, hq, hq₂⟩ => hw ▸ hq₂ u hq

/-- The next token is read. -/
theorem next {f : Unit → Parser α}
    (h : Finds (n - 1) (fun a => k a - 1) (f ()) fun w => Q (t :: w)) : FindsAt t ts n k (advance >>= f) Q := by
  rintro ⟨rest, endLine, errors⟩ hr hs
  cases hr
  show Found k Q _ (f () ⟨ts, endLine, errors⟩)
  have fewer : ts.length ≤ n - 1 := by
    rw [List.length_cons] at hs
    omega
  exact .behind (u := [t]) (s := ⟨ts, endLine, errors⟩) rfl rfl (h _ fewer)

end FindsAt

namespace Finds

variable {n m : Nat} {k k' : α → Nat} {p : Parser α} {Q Q' : List Token → List Token → α → Prop}

/-! ## Loops -/

/-- A loop whose rounds all read something. `R a` says what the loop finds from the value `a` on. -/
theorem repeating {step : σ → Parser (σ ⊕ β)} {R : σ → List Token → List Token → β → Prop}
    (hstep : ∀ a, Finds n (Sum.elim (fun _ => 1) fun _ => 0) (step a) fun w r x =>
      match x with
      | .inl a' => ∀ w' r' b, r = w' ++ r' → R a' w' r' b → R a (w ++ w') r' b
      | .inr b => R a w r b)
    {fuel : Nat} (hn : n < fuel) (a : σ) : Finds n (fun _ => 0) (repeating step fuel a) (R a) := by
  induction fuel generalizing n a with
  | zero => omega
  | succ fuel ih =>
      refine (hstep a).andThen fun x hx => ?_
      cases x with
      | inr b =>
          refine pure (by simp) fun r u hu => ?_
          simpa using hu
      | inl a' =>
          have pos : 1 ≤ n := hx
          refine (ih (fun b => (hstep b).fewer (Nat.sub_le n 1)) (by omega) a').mono (by simp) ?_
          exact fun v r b hR u hu => hu v r b rfl hR

/-- One round of reading a list with commas. -/
theorem commaItem {I : List Token → α → Prop} (h : Finds n (fun _ => 1) p fun w _ a => I w a) (items : Array α) :
    Finds n (Sum.elim (fun _ => 1) fun _ => 0) (do
      let items := items.push (← p)
      match ← Parser.symbol? .comma with
      | some _ => return Sum.inl items
      | none => return Sum.inr items.toList : Parser (Array α ⊕ List α)) fun w _ x =>
      ∃ v a, I v a ∧ ((x = .inr (items.push a).toList ∧ w = v) ∨
        ∃ t, t.kind = .symbol .comma ∧ x = .inl (items.push a) ∧ w = v ++ [t]) := by
  refine h.andThen fun a _ => ?_
  refine (symbol? .comma).andThen fun o _ => ?_
  cases o with
  | some t =>
      refine pure (by simp) fun r u hu v hv => ⟨v, a, hv, .inr ?_⟩
      rcases hu with ⟨ho, _⟩ | ⟨t', ho, rfl, ht⟩
      · cases ho
      · cases ho
        exact ⟨t, ht, rfl, by simp⟩
  | none =>
      refine pure (by simp) fun r u hu v hv => ⟨v, a, hv, .inl ⟨rfl, ?_⟩⟩
      rcases hu with ⟨_, rfl, _⟩ | ⟨_, ho, _⟩
      · simp
      · cases ho

/-- A list with commas is read item by item. Beyond the limit there are errors. -/
theorem commaSeparated {I : List Token → α → Prop} (h : Finds n (fun _ => 1) p fun w _ a => I w a)
    (cause : SyntaxError) {fuel : Nat} (hn : n < fuel) :
    Finds n (fun _ => 0) (commaSeparated fuel p cause) fun w _ as => ∃ parts : List (List Token × α),
      parts ≠ [] ∧ (∀ x ∈ parts, I x.1 x.2) ∧ Commas (parts.map Prod.fst) w ∧ as = parts.map Prod.snd ∧
        parts.length ≤ maxArguments := by
  unfold Parser.commaSeparated
  let R (items : Array α) (w _ : List Token) (as : List α) : Prop := ∃ parts : List (List Token × α),
    parts ≠ [] ∧ (∀ x ∈ parts, I x.1 x.2) ∧ Commas (parts.map Prod.fst) w ∧
      as = items.toList ++ parts.map Prod.snd ∧ items.size + parts.length ≤ maxArguments
  refine (repeating (R := R) (fun items => ?_) hn #[]).mono (by simp) ?_
  · dsimp only
    split
    · exact (report cause).andThen fun _ _ => (commaItem h items).mono (by simp) fun _ _ _ _ _ hu => hu.elim
    · next room =>
        refine (commaItem h items).mono (by simp) fun w r x => ?_
        rintro ⟨v, a, ha, ⟨rfl, rfl⟩ | ⟨t, ht, rfl, rfl⟩⟩
        · exact ⟨[(w, a)], by simp, by simpa using ha, .one, by simp, by simp; omega⟩
        · rintro w' r' b - ⟨parts, some_left, hI, commas, rfl, few⟩
          refine ⟨(v, a) :: parts, by simp, ?_, ?_, by simp, ?_⟩
          · intro x hx
            rcases List.mem_cons.1 hx with rfl | hx
            · exact ha
            · exact hI x hx
          · obtain ⟨part, parts, rfl⟩ := List.exists_cons_of_ne_nil some_left
            simpa using Commas.cons (w := v) ht commas
          · rw [Array.size_push] at few
            rw [List.length_cons]
            omega
  · rintro w r as ⟨parts, some_left, hI, commas, has, few⟩
    exact ⟨parts, some_left, hI, commas, by simpa using has, by simpa using few⟩

/-- A rejected parser is an error, behind which at least one token is skipped. -/
theorem recovering {t : Token} {ts : List Token} (h : Finds n (fun _ => 1) p Q) :
    FindsAt t ts n (fun _ => 1) (recovering p) fun w r o => ∃ a, o = some a ∧ Q w r a := by
  intro s hr hs
  have found := h s hs
  have skipped : ∀ (last : Token) (us : List Token), ∃ v, us = v ++ skipStatement last us := by
    intro last us
    induction us generalizing last with
    | nil => exact ⟨[], rfl⟩
    | cons u us ih =>
        unfold skipStatement
        split
        · exact ⟨[], rfl⟩
        · obtain ⟨v, hv⟩ := ih u
          exact ⟨u :: v, congrArg (u :: ·) hv⟩
  unfold Parser.recovering
  cases hp : p s with
  | ok a s' =>
      rw [hp] at found
      cases found with
      | quiet hw hl he hq => exact .quiet hw hl he ⟨a, rfl, hq⟩
      | noisy hw hl he => exact .noisy hw hl he
  | error f s' =>
      rw [hp] at found
      cases found with
      | @rejected _ w hw he =>
          obtain ⟨rest, endLine, errors⟩ := s'
          cases rest with
          | nil =>
              refine .noisy (w := w) (by simpa [synchronize] using hw) ?_ he
              rw [← List.append_nil w, ← hw, hr, List.length_cons]
              omega
          | cons u us =>
              obtain ⟨v, hv⟩ := skipped u us
              refine .noisy (w := w ++ u :: v) ?_ (by simp; omega) he
              show s.rest = (w ++ u :: v) ++ skipStatement u us
              rw [hw, List.append_assoc, List.cons_append, ← hv]

/-- A parser that finishes without an error has read the text up to what is left. -/
theorem run (h : Finds n k p Q) {ts : TokenList} (hn : ts.tokens.length ≤ n) {fallback : α}
    (quiet : (Parser.run p fallback ts).errors = []) :
    ∃ w r, ts.tokens = w ++ r ∧ Q w r (Parser.run p fallback ts).value := by
  have found := h ⟨ts.tokens, ts.endLine, #[]⟩ hn
  unfold Parser.run at quiet ⊢
  generalize p ⟨ts.tokens, ts.endLine, #[]⟩ = result at found quiet
  have loud : ∀ errors : Array (Located SyntaxError), 0 < errors.size → errors.toList ≠ [] := by
    intro errors pos none_found
    rw [← Array.length_toList, none_found] at pos
    exact absurd pos (Nat.lt_irrefl 0)
  cases found with
  | quiet hw _ _ hq => exact ⟨_, _, hw, hq⟩
  | noisy _ _ he => exact absurd quiet (loud _ he)
  | rejected _ he => exact absurd quiet (loud _ he)

end Finds

end Parser

end LoxScript
