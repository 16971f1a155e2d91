import LoxScript.Proofs.Grammar.Spelled

/-!
# What parsers read

`Reads p w r a` says that a parser takes the tokens `w` from the front of `w ++ r`, finds no error in them and gives
`a`. There is one law for each way to compose parsers.
-/

namespace LoxScript

namespace Parser

variable {α β σ : Type}

/-- The parser reads exactly `w` where `w` and then `r` comes next. -/
def Reads (p : Parser α) (w r : List Token) (a : α) : Prop :=
  ∀ s : ParseState, s.rest = w ++ r → p s = .ok a { s with rest := r }

namespace Reads

variable {p : Parser α} {u v w r : List Token} {a : α} {b : β} {t : Token}

theorem pure : Reads (Pure.pure a) [] r a := by
  rintro ⟨rest, endLine, errors⟩ hs
  cases hs
  rfl

theorem bind {f : α → Parser β} (h : Reads p u (v ++ r) a) (hf : Reads (f a) v r b) :
    Reads (p >>= f) (u ++ v) r b := by
  intro s hs
  rw [List.append_assoc] at hs
  show EStateM.bind p f s = _
  unfold EStateM.bind
  rw [h s hs]
  exact hf _ rfl

/-- What is given is made from what was read last. -/
theorem giving {f : α → β} (h : Reads p w r a) : Reads (p >>= fun a => Pure.pure (f a)) w r (f a) := by
  rw [← List.append_nil w]
  exact h.bind pure

theorem map {f : α → β} (h : Reads p w r a) : Reads (f <$> p) w r (f a) := by
  rw [← bind_pure_comp f p]
  exact h.giving

/-! ## Single tokens -/

/-- A parser that looks at the next token first. -/
theorem front {g : List Token → Parser α} (h : Reads (g (w ++ r)) w r a) : Reads (Parser.remaining >>= g) w r a := by
  intro s hs
  show g s.rest s = _
  rw [hs]
  exact h s hs

theorem frontKind {g : Option Token.Kind → Parser α} (h : Reads (g ((w ++ r).head?.map Token.kind)) w r a) :
    Reads (Parser.nextKind? >>= g) w r a :=
  front (g := fun ts => g (ts.head?.map Token.kind)) h

/-- The next token is read. -/
theorem next {f : Unit → Parser α} (h : Reads (f ()) w r a) : Reads (advance >>= f) (t :: w) r a := by
  rintro ⟨rest, endLine, errors⟩ hs
  cases hs
  exact h _ rfl

/-- The next token tells what to read behind it. -/
theorem frontNext {g : List Token → Parser α} {p : Parser α} (hg : g (t :: (w ++ r)) = advance >>= fun _ => p)
    (h : Reads p w r a) : Reads (Parser.remaining >>= g) (t :: w) r a :=
  front (hg ▸ next h)

theorem frontKindNext {g : Option Token.Kind → Parser α} {p : Parser α} {k : Token.Kind} (ht : t.kind = k)
    (hg : g (some k) = advance >>= fun _ => p) (h : Reads p w r a) : Reads (Parser.nextKind? >>= g) (t :: w) r a :=
  frontNext (g := fun ts => g (ts.head?.map Token.kind)) ((congrArg (fun k => g (some k)) ht).trans hg) h

theorem accept?_some {f : Token → Option α} (h : f t = some a) : Reads (accept? f) [t] r (some a) := by
  refine front ?_
  simp only [List.cons_append, h]
  exact next pure

theorem accept?_none {f : Token → Option α} (h : ∀ t ∈ r.head?, f t = none) : Reads (accept? f) [] r none := by
  refine front ?_
  cases r with
  | nil => exact pure
  | cons t ts =>
      simp only [List.nil_append, h t rfl]
      exact pure

theorem symbol?_some {s : Symbol} (h : t.kind = .symbol s) : Reads (symbol? s) [t] r (some t) :=
  accept?_some (by simp [Token.isSymbol, h])

theorem symbol?_none {s : Symbol} (h : ∀ t ∈ r.head?, t.kind ≠ .symbol s) : Reads (symbol? s) [] r none :=
  accept?_none fun t ht => by simp [Token.isSymbol, h t ht]

theorem keyword?_some {k : Keyword} (h : t.kind = .keyword k) :
    Reads (accept? fun t => if t.isKeyword k then some () else none) [t] r (some ()) :=
  accept?_some (by simp [Token.isKeyword, h])

theorem keyword?_none {k : Keyword} (h : ∀ t ∈ r.head?, t.kind ≠ .keyword k) :
    Reads (accept? fun t => if t.isKeyword k then some () else none) [] r none :=
  accept?_none fun t ht => by simp [Token.isKeyword, h t ht]

theorem symbol {s : Symbol} {cause : SyntaxError} (h : t.kind = .symbol s) : Reads (symbol s cause) [t] r t :=
  (symbol?_some h).bind pure

theorem symbolAfter {s : Symbol} {clause : Clause} (h : t.kind = .symbol s) :
    Reads (symbolAfter s clause) [t] r t :=
  symbol h

theorem symbolBefore {s : Symbol} {clause : Clause} (h : t.kind = .symbol s) :
    Reads (symbolBefore s clause) [t] r t :=
  symbol h

theorem name {role : NameRole} {x : Name} (h : t.name? = some x) : Reads (name role) [t] r x :=
  (accept?_some h).bind pure

theorem atSymbol_true {s : Symbol} (h : t.kind = .symbol s) : Reads (atSymbol s) [] (t :: r) true := by
  have same : (some t.kind == some (Token.Kind.symbol s)) = true := by simp [h]
  refine frontKind ?_
  show Reads (Pure.pure (some t.kind == some (Token.Kind.symbol s))) [] (t :: r) true
  rw [same]
  exact pure

theorem atSymbol_false {s : Symbol} (h : ∀ t ∈ r.head?, t.kind ≠ .symbol s) : Reads (atSymbol s) [] r false := by
  refine frontKind ?_
  have other : (r.head?.map Token.kind == some (Token.Kind.symbol s)) = false := by
    cases r with
    | nil => rfl
    | cons t ts => simpa using h t rfl
  show Reads (Pure.pure (r.head?.map Token.kind == some (Token.Kind.symbol s))) [] r false
  rw [other]
  exact pure

theorem atEnd : Reads atEnd [] r r.isEmpty :=
  front pure

theorem recovering (h : Reads p w r a) : Reads (recovering p) w r (some a) := by
  intro s hs
  unfold Parser.recovering
  rw [h s hs]

/-! ## Loops -/

variable {step : σ → Parser (σ ⊕ β)} {x y : σ} {fuel : Nat}

theorem done (h : Reads (step x) w r (.inr b)) : Reads (repeating step (fuel + 1) x) w r b := by
  rw [← List.append_nil w]
  exact bind (v := []) h pure

theorem again (h : Reads (step x) u (v ++ r) (.inl y)) (hy : Reads (repeating step fuel y) v r b) :
    Reads (repeating step (fuel + 1) x) (u ++ v) r b :=
  bind h hy

/-- A loop behind `p` comes to the value `x` when it has read `w` and sees `r`: it reads from there on as it would
from `x`, with less fuel. -/
def Arrives (p : Parser σ) (step : σ → Parser (σ ⊕ β)) (w r : List Token) (x : σ) : Prop :=
  ∃ k, k + 1 ≤ w.length ∧ ∀ fuel v r' b, r = v ++ r' → Reads (repeating step fuel x) v r' b →
    Reads (p >>= repeating step (fuel + k)) (w ++ v) r' b

theorem arrives {p : Parser σ} (h : Reads p w r x) (hw : 1 ≤ w.length) : Arrives p step w r x :=
  ⟨0, hw, fun _ _ _ _ hr hx => bind (hr ▸ h) hx⟩

theorem Arrives.round {p : Parser σ} (h : Arrives p step u (v ++ r) x) (hx : Reads (step x) v r (.inl y))
    (hv : 1 ≤ v.length) : Arrives p step (u ++ v) r y := by
  obtain ⟨k, hk, reads⟩ := h
  refine ⟨k + 1, by rw [List.length_append]; omega, fun fuel v' r' b hr hy => ?_⟩
  have more := reads (fuel + 1) (v ++ v') r' b (by rw [hr, List.append_assoc]) (again (hr ▸ hx) hy)
  rw [List.append_assoc]
  have same : fuel + 1 + k = fuel + (k + 1) := by omega
  rwa [same] at more

/-- The loop ends where it has come to. -/
theorem Arrives.done {p : Parser σ} (h : Arrives p step w r x) (hx : Reads (step x) [] r (.inr b))
    (hw : w.length ≤ fuel) : Reads (p >>= repeating step fuel) w r b := by
  obtain ⟨k, hk, reads⟩ := h
  have ended := reads (fuel - k) [] r b rfl
  have some_left : fuel - k = fuel - k - 1 + 1 := by omega
  have whole : fuel - k + k = fuel := by omega
  rw [some_left] at ended
  have := ended (.done hx)
  rwa [← some_left, whole, List.append_nil] at this

/-- A loop that reads a list with commas, one item in each round. -/
theorem commaLoop {parts : List (List Token × α)} {step : Array α → Parser (Array α ⊕ List α)}
    (hlast : ∀ x ∈ parts, ∀ items : Array α, items.size < maxArguments →
      Reads (step items) x.1 r (.inr (items.push x.2).toList))
    (hmore : ∀ x ∈ parts, ∀ items : Array α, items.size < maxArguments → ∀ t ts, t.kind = .symbol .comma →
      Reads (step items) (x.1 ++ [t]) ts (.inl (items.push x.2)))
    (commas : Commas (parts.map Prod.fst) w) (some_left : parts ≠ []) (items : Array α) (fuel : Nat)
    (few : items.size + parts.length ≤ maxArguments) (hfuel : parts.length ≤ fuel) :
    Reads (repeating step fuel items) w r (items.toList ++ parts.map Prod.snd) := by
  induction parts generalizing w items fuel with
  | nil => exact absurd rfl some_left
  | cons x parts ih =>
      obtain ⟨fuel, rfl⟩ : ∃ k, fuel = k + 1 := ⟨fuel - 1, by rw [List.length_cons] at hfuel; omega⟩
      rw [List.length_cons] at few hfuel
      cases parts with
      | nil =>
          cases commas with
          | one =>
              have last : Reads (repeating step (fuel + 1) items) x.1 r (items.push x.2).toList :=
                done (hlast x List.mem_cons_self items (by omega))
              simpa using last
      | cons y parts =>
          cases commas with
          | @cons _ _ _ t v ht commas =>
              have rest := ih (fun z hz => hlast z (List.mem_cons_of_mem _ hz))
                (fun z hz => hmore z (List.mem_cons_of_mem _ hz)) commas (by simp) (items.push x.2) fuel
                (by rw [Array.size_push]; omega) (by omega)
              have whole := again (hmore x List.mem_cons_self items (by omega) t (v ++ r) ht) rest
              simpa using whole

/-- A list with commas is read item by item, where no comma follows. -/
theorem commaSeparated {Ends : List Token → Prop} {cause : SyntaxError} {parts : List (List Token × α)}
    (hp : ∀ x ∈ parts, ∀ r, Ends r → Reads p x.1 r x.2) (hcomma : ∀ t ts, t.kind = .symbol .comma → Ends (t :: ts))
    (hend : Ends r) (hr : ∀ t ∈ r.head?, t.kind ≠ .symbol .comma) (commas : Commas (parts.map Prod.fst) w)
    (some_left : parts ≠ []) (few : parts.length ≤ maxArguments) (hfuel : parts.length ≤ fuel) :
    Reads (commaSeparated fuel p cause) w r (parts.map Prod.snd) := by
  unfold Parser.commaSeparated
  refine commaLoop (fun x hx items room => ?_) (fun x hx items room t ts ht => ?_) commas some_left #[] fuel
    (by simpa using few) hfuel
  · dsimp only
    rw [if_neg (by omega), ← List.append_nil x.1]
    exact bind (v := []) (hp x hx _ hend) (bind (v := []) (symbol?_none hr) pure)
  · dsimp only
    rw [if_neg (by omega)]
    exact bind (hp x hx _ (hcomma t ts ht)) (bind (symbol?_some ht) pure)

/-- A list with commas that may be empty is read up to the closing parenthesis. -/
theorem listed (Ends : List Token → Prop) {cause : SyntaxError} {parts : List (List Token × α)}
    (hp : ∀ x ∈ parts, ∀ r, Ends r → Reads p x.1 r x.2)
    (hends : ∀ t ts, t.kind = .symbol .comma ∨ t.kind = .symbol .rightParen → Ends (t :: ts))
    (hstart : ∀ x ∈ parts, ∀ r, ∀ t ∈ (x.1 ++ r).head?, t.kind ≠ .symbol .rightParen)
    (commas : Commas (parts.map Prod.fst) w) (few : parts.length ≤ maxArguments) (ht : t.kind = .symbol .rightParen)
    (hfuel : w.length ≤ fuel) :
    Reads (do if ← Parser.atSymbol .rightParen then return [] else Parser.commaSeparated fuel p cause)
      w (t :: r) (parts.map Prod.snd) := by
  cases parts with
  | nil =>
      cases commas with
      | nil => exact .bind (u := []) (.atSymbol_true ht) .pure
  | cons x parts =>
      have no_item_empty : ∀ u ∈ (x :: parts).map Prod.fst, u ≠ [] := by
        intro u hu
        obtain ⟨y, hy, rfl⟩ := List.mem_map.1 hu
        intro empty
        have := hstart y hy (t :: r) t
        rw [empty] at this
        exact this rfl ht
      have count := commas.count_le no_item_empty
      rw [List.length_map] at count
      have goes_on : ∀ u ∈ (w ++ t :: r).head?, u.kind ≠ .symbol .rightParen := by
        obtain ⟨v, rfl⟩ := Commas.head commas
        rw [List.append_assoc]
        exact hstart x List.mem_cons_self _
      exact .bind (u := []) (.atSymbol_false goes_on) (.commaSeparated hp (fun t ts ht => hends t ts (.inl ht))
        (hends t r (.inr ht)) (by simp [ht]) commas (by simp) few (by omega))

/-- A loop that reads one part after another and stops at `r`. -/
theorem collectLoop (Ends : List Token → Prop) {parts : List (List Token × α)}
    {step : Array α → Parser (Array α ⊕ List α)}
    (hstop : ∀ items : Array α, Reads (step items) [] r (.inr items.toList))
    (hmore : ∀ x ∈ parts, ∀ (items : Array α) rest, Ends rest → Reads (step items) x.1 rest (.inl (items.push x.2)))
    (hends : ∀ x ∈ parts, ∀ rest, Ends (x.1 ++ rest)) (hr : Ends r) (items : Array α) (fuel : Nat)
    (hfuel : parts.length < fuel) :
    Reads (repeating step fuel items) (parts.map Prod.fst).flatten r (items.toList ++ parts.map Prod.snd) := by
  induction parts generalizing items fuel with
  | nil =>
      obtain ⟨fuel, rfl⟩ : ∃ k, fuel = k + 1 := ⟨fuel - 1, by omega⟩
      have stopped : Reads (repeating step (fuel + 1) items) [] r items.toList := done (hstop items)
      simpa using stopped
  | cons x parts ih =>
      obtain ⟨fuel, rfl⟩ : ∃ k, fuel = k + 1 := ⟨fuel - 1, by omega⟩
      rw [List.length_cons] at hfuel
      have rest := ih (fun y hy => hmore y (List.mem_cons_of_mem _ hy))
        (fun y hy => hends y (List.mem_cons_of_mem _ hy))
        (items.push x.2) fuel (by omega)
      have follow : Ends ((parts.map Prod.fst).flatten ++ r) := by
        cases parts with
        | nil => exact hr
        | cons y parts =>
            rw [List.map_cons, List.flatten_cons, List.append_assoc]
            exact hends y (List.mem_cons_of_mem _ List.mem_cons_self) _
      have whole := again (hmore x List.mem_cons_self items _ follow) rest
      simpa using whole

end Reads

end Parser

end LoxScript
