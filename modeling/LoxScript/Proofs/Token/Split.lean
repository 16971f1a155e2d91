import LoxScript.Proofs.Token.Append
import LoxScript.Proofs.Token.Comment
import LoxScript.Proofs.Token.Lexeme

/-!
# The one way to split a text

A text splits into lexemes, blanks, newlines, comments and faulty pieces. Read from left to right, where a comment
comes before a slash and the longest lexeme before all shorter ones, it does so in exactly one way.
-/

namespace LoxScript

open Token (IsLexeme)

namespace Piece

/-- A piece stands at the beginning of a text if `rest` follows it. -/
inductive Stands : Piece → List Char → Prop where
  /-- No comment begins there, and no longer lexeme. -/
  | lexeme {kind : Token.Kind} {text rest : List Char} : IsLexeme kind text → ¬ ['/', '/'] <+: text ++ rest →
      ¬ ['/', '*'] <+: text ++ rest →
      (∀ kind' longer, IsLexeme kind' longer → longer <+: text ++ rest → longer.length ≤ text.length) →
      Stands (lexeme kind text) rest
  | spacing {c : Char} {rest : List Char} : c ∈ [' ', '\t', '\r'] → Stands (spacing c) rest
  | newline {rest : List Char} : Stands newline rest
  /-- The newline that ends the comment is no part of it. -/
  | lineComment {body rest : List Char} : '\n' ∉ body → (rest = [] ∨ ['\n'] <+: rest) →
      Stands (lineComment ('/' :: '/' :: body)) rest
  | blockComment {text rest : List Char} : Comment.Closed text → Stands (blockComment text) rest
  | unexpected {c : Char} {rest : List Char} : (∀ kind text, IsLexeme kind text → ¬ text <+: c :: rest) →
      c ∉ [' ', '\t', '\r', '\n', '"'] → Stands (unexpected c) rest
  | openString {contents : List Char} : '"' ∉ contents → Stands (openString ('"' :: contents)) []
  | openComment {text : List Char} : Comment.Open text → Stands (openComment text) []

/-! ## The first piece stands at the beginning -/

variable {c : Char} {rest : List Char}

theorem mem_takeWhile {p : Char → Bool} {d : Char} {cs : List Char} (h : d ∈ cs.takeWhile p) : p d = true :=
  List.all_eq_true.1 List.all_takeWhile d h

theorem not_mem_takeWhile (q : Char) (cs : List Char) : q ∉ cs.takeWhile (· != q) := by
  intro h
  have := mem_takeWhile h
  simp at this

/-- A run of characters of one class that a text begins with is part of the longest such run. -/
theorem length_le_takeWhile {p : Char → Bool} {t cs : List Char} (all : ∀ d ∈ t, p d = true) (front : t <+: cs) :
    t.length ≤ (cs.takeWhile p).length := by
  obtain ⟨more, rfl⟩ := front
  rw [List.takeWhile_append_of_pos all, List.length_append]
  exact Nat.le_add_right _ _

/-- To stand at the beginning of a text, a lexeme that begins with no slash has but to be the longest. -/
theorem Stands.lexeme_cons {kind : Token.Kind} {t cs : List Char} (cut : t ++ rest = cs)
    (lexeme : IsLexeme kind (c :: t)) (slash : c ≠ '/')
    (longest : ∀ kind' t', IsLexeme kind' (c :: t') → t' <+: cs → t'.length ≤ t.length) :
    Stands (.lexeme kind (c :: t)) rest := by
  refine .lexeme lexeme (by simp [Ne.symm slash]) (by simp [Ne.symm slash]) fun kind' longer h front => ?_
  cases longer with
  | nil => exact Nat.zero_le _
  | cons d longer =>
      obtain ⟨rfl, front⟩ := List.cons_prefix_cons.1 front
      exact Nat.succ_le_succ (longest kind' longer h (by rwa [← cut]))

theorem afterLetter_stands (letter : isLetter c = true) (rest : List Char) :
    Stands (afterLetter c rest).1 (afterLetter c rest).2 := by
  refine .lexeme_cons List.takeWhile_append_dropWhile (.word letter fun d => mem_takeWhile)
    (by rintro rfl; exact absurd letter (by decide)) fun kind t h front => ?_
  exact length_le_takeWhile (h.of_letter letter).1 front

section Digit

variable (digit : isDigit c = true)

include digit

theorem not_slash_of_isDigit : c ≠ '/' := by
  rintro rfl
  exact absurd digit (by decide)

/-- A lexeme with a fraction has the longest possible whole part, and its point is next. -/
theorem fraction_prefix {kind : Token.Kind} {t : List Char} (h : IsLexeme kind (c :: t)) (front : t <+: rest) :
    t.length ≤ (rest.takeWhile isDigit).length ∨ ∃ fraction, t = rest.takeWhile isDigit ++ '.' :: fraction ∧
      fraction ≠ [] ∧ (∀ d ∈ fraction, isDigit d = true) ∧ '.' :: fraction <+: rest.dropWhile isDigit := by
  have point : isDigit '.' = false := by decide
  obtain ⟨digits, _⟩ | ⟨whole, fraction, rfl, digits, some, digits', _⟩ := h.of_digit digit
  · exact .inl (length_le_takeWhile digits front)
  · obtain ⟨more, rfl⟩ := front
    refine .inr ⟨fraction, ?_, some, digits', ?_⟩
    · rw [List.append_assoc, List.takeWhile_append_of_pos digits]
      simp [point]
    · rw [List.append_assoc, List.dropWhile_append_of_pos digits]
      simp [point]

/-- Without a point and a digit after it, the numeral is whole. -/
theorem whole_stands (noFraction : ∀ d after, rest.dropWhile isDigit = '.' :: d :: after → isDigit d = false) :
    Stands (.lexeme (.number (Number.ofNumeral (c :: rest.takeWhile isDigit) [])) (c :: rest.takeWhile isDigit))
      (rest.dropWhile isDigit) := by
  refine .lexeme_cons List.takeWhile_append_dropWhile
    (.whole (List.cons_ne_nil _ _) (List.forall_mem_cons.2 ⟨digit, fun d => mem_takeWhile⟩))
    (not_slash_of_isDigit digit) fun kind t h front => ?_
  obtain short | ⟨fraction, _, some, digits, more, same⟩ := fraction_prefix digit h front
  · exact short
  · cases fraction with
    | nil => exact absurd rfl some
    | cons d fraction =>
        have := noFraction d (fraction ++ more) same.symm
        rw [digits d List.mem_cons_self] at this
        cases this

theorem fractional_stands {d : Char} {after : List Char} (digit' : isDigit d = true)
    (h : rest.dropWhile isDigit = '.' :: d :: after) :
    Stands (.lexeme (.number (Number.ofNumeral (c :: rest.takeWhile isDigit) (d :: after.takeWhile isDigit)))
      (c :: rest.takeWhile isDigit ++ '.' :: d :: after.takeWhile isDigit)) (after.dropWhile isDigit) := by
  have cut : rest.takeWhile isDigit ++ '.' :: d :: after.takeWhile isDigit ++ after.dropWhile isDigit = rest := by
    simp [← h]
  refine .lexeme_cons cut (.fractional (List.cons_ne_nil _ _)
      (List.forall_mem_cons.2 ⟨digit, fun d => mem_takeWhile⟩) (List.cons_ne_nil _ _)
      (List.forall_mem_cons.2 ⟨digit', fun d => mem_takeWhile⟩))
    (not_slash_of_isDigit digit) fun kind t lexeme front => ?_
  show t.length ≤ (rest.takeWhile isDigit ++ '.' :: d :: after.takeWhile isDigit).length
  rw [List.length_append]
  obtain short | ⟨fraction, rfl, _, digits, front⟩ := fraction_prefix digit lexeme front
  · exact Nat.le_add_right_of_le short
  · rw [h, List.cons_prefix_cons] at front
    have := length_le_takeWhile digits front.2
    rw [List.takeWhile_cons_of_pos digit'] at this
    rw [List.length_append]
    exact Nat.add_le_add_left (Nat.succ_le_succ this) _

theorem afterDigit_stands (rest : List Char) : Stands (afterDigit c rest).1 (afterDigit c rest).2 := by
  unfold afterDigit
  split
  · next d after h =>
      split
      · next digit' => exact fractional_stands digit digit' h
      · next digit' =>
          rw [← h]
          refine whole_stands digit fun d' after' h' => ?_
          rw [h] at h'
          cases h'
          exact Bool.eq_false_iff.2 digit'
  · next noPoint => exact whole_stands digit fun d after h => absurd h (noPoint d after)

end Digit

theorem afterQuote_stands (rest : List Char) : Stands (afterQuote rest).1 (afterQuote rest).2 := by
  have noQuote := not_mem_takeWhile '"' rest
  have cut := List.takeWhile_append_dropWhile (p := (· != '"')) (l := rest)
  unfold afterQuote
  split
  · next h =>
      rw [h, List.append_nil] at cut
      rw [cut] at noQuote
      exact .openString noQuote
  · next q after h =>
      obtain rfl : q = '"' := by
        have := List.head?_dropWhile_not (· != '"') rest
        simpa [h] using this
      rw [h] at cut
      refine .lexeme_cons (by simpa using cut) (.string noQuote) (by decide) fun kind t lexeme front => ?_
      obtain ⟨contents, noQuote', rfl, _⟩ := lexeme.of_quote
      have inside : ∀ d ∈ contents, (d != '"') = true := by
        rintro d hd
        simp only [bne_iff_ne, ne_eq]
        rintro rfl
        exact noQuote' hd
      have := length_le_takeWhile inside ((List.prefix_append _ _).trans front)
      show (contents ++ ['"']).length ≤ (rest.takeWhile (· != '"') ++ ['"']).length
      rw [List.length_append, List.length_append]
      exact Nat.succ_le_succ this

theorem afterSlash_stands (rest : List Char) : Stands (afterSlash rest).1 (afterSlash rest).2 := by
  unfold afterSlash
  split
  · next after =>
      refine .lineComment (not_mem_takeWhile '\n' after) ?_
      cases h : after.dropWhile (· != '\n') with
      | nil => exact .inl rfl
      | cons q more =>
          have := List.head?_dropWhile_not (· != '\n') after
          obtain rfl : q = '\n' := by simpa [h] using this
          exact .inr ⟨more, rfl⟩
  · next after =>
      split
      · next body rest h => exact .blockComment (Comment.closed_iff.2 (closeComment_marks h).2)
      · next h => exact .openComment (Comment.open_iff.2 (stays_of_closeComment h))
  · next noLine noBlock =>
      refine .lexeme (.symbol .slash) ?_ ?_ fun kind longer h front => ?_
      · rintro ⟨more, same⟩
        exact noLine more (List.cons.inj same).2.symm
      · rintro ⟨more, same⟩
        exact noBlock more (List.cons.inj same).2.symm
      · cases longer with
        | nil => exact Nat.zero_le _
        | cons d longer =>
            obtain ⟨rfl, _⟩ := List.cons_prefix_cons.1 front
            obtain ⟨s, hs, _⟩ := h.of_other (by decide) (by decide) (by decide)
            obtain ⟨_, ⟨rfl, _⟩ | ⟨_, _, extended⟩⟩ := Symbol.text_cons hs
            · exact Nat.le_refl _
            · cases extended

section Other

variable (slash : c ≠ '/') (quote : c ≠ '"') (digit : isDigit c = false) (letter : isLetter c = false)

include slash quote digit letter

/-- The symbols that begin with a character that begins nothing else but symbols. -/
theorem symbol_cons {kind : Token.Kind} {t : List Char} (h : IsLexeme kind (c :: t)) : ∃ s : Symbol,
    t = [] ∧ (Symbol.ofChar? c = some s ∨ ∃ long, Symbol.extensible? c = some (long, s)) ∨
      t = ['='] ∧ ∃ short, Symbol.extensible? c = some (s, short) := by
  obtain ⟨s, hs, _⟩ := h.of_other letter quote digit
  refine ⟨s, (Symbol.text_cons hs).2.imp_left fun ⟨single, alone⟩ => ⟨single, ?_⟩⟩
  exact alone.resolve_left fun ⟨same, _⟩ => slash same

theorem afterOther_stands (rest : List Char) : Stands (afterOther c rest).1 (afterOther c rest).2 := by
  unfold afterOther
  split
  · next s h =>
      have lexeme := IsLexeme.symbol s
      rw [Symbol.text_ofChar? h] at lexeme
      refine .lexeme_cons (List.nil_append _) lexeme slash fun kind t h' front => ?_
      obtain ⟨s', ⟨rfl, _⟩ | ⟨_, short, extended⟩⟩ := symbol_cons slash quote digit letter h'
      · exact Nat.le_refl _
      · rw [Symbol.extensible?_of_ofChar? h] at extended
        cases extended
  · next long short _ h =>
      obtain ⟨longText, shortText⟩ := Symbol.text_extensible? h
      split
      · next after =>
          have lexeme := IsLexeme.symbol long
          rw [longText] at lexeme
          refine .lexeme_cons rfl lexeme slash fun kind t h' front => ?_
          obtain ⟨s', ⟨rfl, _⟩ | ⟨rfl, _⟩⟩ := symbol_cons slash quote digit letter h'
          · exact Nat.zero_le _
          · exact Nat.le_refl _
      · next noEqual =>
          have lexeme := IsLexeme.symbol short
          rw [shortText] at lexeme
          refine .lexeme_cons (List.nil_append _) lexeme slash fun kind t h' front => ?_
          obtain ⟨s', ⟨rfl, _⟩ | ⟨rfl, _⟩⟩ := symbol_cons slash quote digit letter h'
          · exact Nat.le_refl _
          · obtain ⟨more, rfl⟩ := front
            exact absurd rfl (noEqual more)
  · next h h' =>
      split
      · next spacing => exact .spacing (by simpa [isSpacing, or_assoc, or_comm, or_left_comm] using spacing)
      · next spacing =>
          split
          · exact .newline
          · next newline =>
              refine .unexpected (fun kind text lexeme front => ?_) ?_
              · cases text with
                | nil => exact lexeme.ne_nil rfl
                | cons d t =>
                    obtain ⟨rfl, _⟩ := List.cons_prefix_cons.1 front
                    obtain ⟨s, ⟨_, alone | ⟨_, alone⟩⟩ | ⟨_, _, extended⟩⟩ :=
                      symbol_cons slash quote digit letter lexeme
                    · rw [h] at alone
                      cases alone
                    · rw [h'] at alone
                      cases alone
                    · rw [h'] at extended
                      cases extended
              · simp [isSpacing] at spacing
                simp [spacing, newline, quote]

end Other

theorem first_stands (c : Char) (rest : List Char) : Stands (first c rest).1 (first c rest).2 := by
  unfold first
  split
  · exact afterSlash_stands rest
  · next slash =>
      split
      · exact afterQuote_stands rest
      · next quote =>
          split
          · next digit => exact afterDigit_stands digit rest
          · next digit =>
              split
              · next letter => exact afterLetter_stands letter rest
              · next letter =>
                  exact afterOther_stands slash quote (Bool.eq_false_iff.2 digit) (Bool.eq_false_iff.2 letter) rest

/-! ## No other piece stands there -/

theorem takeWhile_dropWhile_body {q : Char} {body : List Char} (none : q ∉ body)
    (stop : rest = [] ∨ [q] <+: rest) :
    (body ++ rest).takeWhile (· != q) = body ∧ (body ++ rest).dropWhile (· != q) = rest := by
  have inside : ∀ d ∈ body, (d != q) = true := by
    intro d hd
    simp only [bne_iff_ne, ne_eq]
    rintro rfl
    exact none hd
  rw [List.takeWhile_append_of_pos inside, List.dropWhile_append_of_pos inside]
  obtain rfl | ⟨more, rfl⟩ := stop <;> simp

/-- A character that is no lexeme begins no longer one either, except for the quote. -/
theorem first_of_no_lexeme (noLexeme : ∀ kind, ¬ IsLexeme kind [c]) (blank : c ∉ [' ', '\t', '\r', '\n', '"']) :
    first c rest = (unexpected c, rest) := by
  have slash : c ≠ '/' := by
    rintro rfl
    exact noLexeme _ (.symbol .slash)
  have digit : isDigit c = false := Bool.eq_false_iff.2 fun digit =>
    noLexeme _ (.whole (List.cons_ne_nil _ _) (List.forall_mem_cons.2 ⟨digit, nofun⟩))
  have letter : isLetter c = false := Bool.eq_false_iff.2 fun letter => noLexeme _ (.word letter nofun)
  have alone : Symbol.ofChar? c = none := by
    cases h : Symbol.ofChar? c with
    | none => rfl
    | some s => exact absurd (Symbol.text_ofChar? h ▸ .symbol s) (noLexeme (.symbol s))
  have extensible : Symbol.extensible? c = none := by
    cases h : Symbol.extensible? c with
    | none => rfl
    | some s => exact absurd ((Symbol.text_extensible? h).2 ▸ .symbol s.2) (noLexeme (.symbol s.2))
  simp only [List.mem_cons, List.not_mem_nil, or_false, not_or] at blank
  obtain ⟨space, tab, carriage, newline, quote⟩ := blank
  simp [first, afterOther, slash, quote, digit, letter, alone, extensible, isSpacing, space, tab, carriage, newline]

/-- The pieces that are no lexemes. -/
theorem Stands.first_eq_of_other {p : Piece} (h : Stands p rest) (other : ∀ kind text, p ≠ Piece.lexeme kind text)
    {cs : List Char} (begins : p.text ++ rest = c :: cs) : first c cs = (p, rest) := by
  cases h with
  | lexeme => exact absurd rfl (other _ _)
  | @spacing c' _ blank =>
      obtain ⟨rfl, rfl⟩ := List.cons.inj begins
      simp only [List.mem_cons, List.not_mem_nil, or_false] at blank
      obtain rfl | rfl | rfl := blank <;> rfl
  | newline =>
      obtain ⟨rfl, rfl⟩ := List.cons.inj begins
      rfl
  | lineComment noNewline stop =>
      obtain ⟨rfl, rfl⟩ := List.cons.inj begins
      obtain ⟨body, follows⟩ := takeWhile_dropWhile_body noNewline stop
      simp [first, afterSlash, body, follows]
  | blockComment closed =>
      obtain ⟨body, rfl⟩ := closed.begins
      obtain ⟨rfl, rfl⟩ := List.cons.inj begins
      have ends : closeComment 0 (body ++ rest) = some (body, rest) :=
        closeComment_more (closeComment_of_falls (Comment.closed_iff.1 closed)) rest
      simp [first, afterSlash, ends]
  | unexpected noLexeme blank =>
      obtain ⟨rfl, rfl⟩ := List.cons.inj begins
      exact first_of_no_lexeme (fun kind h => noLexeme kind _ h ⟨rest, rfl⟩) blank
  | openString noQuote =>
      rw [text, List.append_nil] at begins
      obtain ⟨rfl, rfl⟩ := List.cons.inj begins
      obtain ⟨body, follows⟩ := takeWhile_dropWhile_body noQuote (.inl rfl)
      rw [List.append_nil] at body follows
      simp [first, afterQuote, follows]
  | openComment isOpen =>
      obtain ⟨body, rfl⟩ := isOpen.begins
      rw [text, List.append_nil] at begins
      obtain ⟨rfl, rfl⟩ := List.cons.inj begins
      have none : closeComment 0 body = none := closeComment_of_stays (Comment.open_iff.1 isOpen)
      simp [first, afterSlash, none]

theorem not_lexeme_of_blank {kind : Token.Kind} {t : List Char} (h : IsLexeme kind (c :: t))
    (blank : c ∈ [' ', '\t', '\r', '\n']) : False := by
  have facts : isLetter c = false ∧ c ≠ '"' ∧ isDigit c = false ∧ (isSpacing c = true ∨ c = '\n') := by
    simp only [List.mem_cons, List.not_mem_nil, or_false] at blank
    obtain rfl | rfl | rfl | rfl := blank <;> decide
  obtain ⟨letter, quote, digit, spacing | newline⟩ := facts
  · obtain ⟨s, hs, _⟩ := h.of_other letter quote digit
    rw [(Symbol.text_cons hs).1.2.2.2.1] at spacing
    cases spacing
  · obtain ⟨s, hs, _⟩ := h.of_other letter quote digit
    exact (Symbol.text_cons hs).1.2.2.2.2 newline

/-- Where a lexeme stands, nothing else does. -/
theorem Stands.eq_lexeme {p : Piece} {kind : Token.Kind} {t rest' : List Char} (h : Stands (.lexeme kind t) rest)
    (h' : Stands p rest') (same : t ++ rest = p.text ++ rest') : ∃ kind' t', p = .lexeme kind' t' := by
  obtain ⟨lexeme, noLine, noBlock, _⟩ := h
  obtain ⟨c, t, rfl⟩ := List.exists_cons_of_ne_nil lexeme.ne_nil
  rw [same] at noLine noBlock
  cases h' with
  | lexeme => exact ⟨_, _, rfl⟩
  | @spacing d _ blank =>
      obtain ⟨rfl, _⟩ := List.cons.inj same
      exact (not_lexeme_of_blank lexeme (List.mem_append_left ['\n'] blank)).elim
  | newline =>
      obtain ⟨rfl, _⟩ := List.cons.inj same
      exact (not_lexeme_of_blank lexeme (by simp)).elim
  | @lineComment body _ _ _ => exact absurd ⟨body ++ rest', rfl⟩ noLine
  | blockComment closed => exact absurd (closed.begins.trans (List.prefix_append _ _)) noBlock
  | openComment isOpen => exact absurd (isOpen.begins.trans (List.prefix_append _ _)) noBlock
  | unexpected noLexeme _ => exact absurd ⟨rest, same⟩ (noLexeme _ _ lexeme)
  | @openString contents noQuote =>
      rw [text, List.append_nil] at same
      obtain ⟨rfl, inner⟩ := List.cons.inj same
      obtain ⟨contents', _, rfl, _⟩ := lexeme.of_quote
      refine absurd ?_ noQuote
      rw [← inner]
      simp

/-- At the beginning of a text only its first piece stands. -/
theorem Stands.first_eq {p : Piece} (h : Stands p rest) {cs : List Char} (begins : p.text ++ rest = c :: cs) :
    first c cs = (p, rest) := by
  obtain ⟨kind, t, rfl⟩ | other : (∃ kind t, p = .lexeme kind t) ∨ ∀ kind t, p ≠ .lexeme kind t := by
    cases p <;> simp
  · have h' := first_stands c cs
    have same : t ++ rest = (first c cs).1.text ++ (first c cs).2 := begins.trans (first_append c cs).symm
    obtain ⟨kind', t', hp⟩ := h.eq_lexeme h' same
    generalize first c cs = split at hp h' same ⊢
    obtain ⟨p, rest'⟩ := split
    obtain rfl : p = .lexeme kind' t' := hp
    obtain ⟨lexeme, _, _, longest⟩ := h
    obtain ⟨lexeme', _, _, longest'⟩ := h'
    have short := longest kind' t' lexeme' (by rw [same]; exact List.prefix_append _ _)
    have long := longest' kind t lexeme (by rw [show t' ++ rest' = _ from same.symm]; exact List.prefix_append _ _)
    obtain ⟨rfl, rfl⟩ := List.append_inj same (Nat.le_antisymm long short)
    rw [lexeme.kind_unique lexeme']
  · exact h.first_eq_of_other other begins

theorem Stands.text_ne_nil {p : Piece} (h : Stands p rest) : p.text ≠ [] := by
  cases h with
  | lexeme h => exact h.ne_nil
  | blockComment h =>
      obtain ⟨body, rfl⟩ := h.begins
      exact List.cons_ne_nil _ _
  | openComment h =>
      obtain ⟨body, rfl⟩ := h.begins
      exact List.cons_ne_nil _ _
  | spacing | newline | lineComment | unexpected | openString => exact List.cons_ne_nil _ _

end Piece

/-! ## Whole texts -/

inductive Splits : List Char → List Piece → Prop where
  | nil : Splits [] []
  | cons {p : Piece} {rest : List Char} {ps : List Piece} : p.Stands rest → Splits rest ps →
      Splits (p.text ++ rest) (p :: ps)

theorem splits_iff {cs : List Char} {ps : List Piece} : Splits cs ps ↔ ps = pieces cs := by
  constructor
  · intro h
    induction h with
    | nil => rw [pieces]
    | @cons p rest ps stands _ ih =>
        obtain ⟨c, t, htext⟩ := List.exists_cons_of_ne_nil stands.text_ne_nil
        have first : Piece.first c (t ++ rest) = (p, rest) := stands.first_eq (congrArg (· ++ rest) htext)
        rw [htext, List.cons_append, pieces, first, ← ih]
  · rintro rfl
    fun_induction pieces cs with
    | case1 => exact .nil
    | case2 c rest step ih =>
        rw [← Piece.first_append c rest]
        exact .cons (Piece.first_stands c rest) ih

end LoxScript
