import LoxScript.Token.Piece

/-!
# Lexemes

The texts that are lexemes of tokens, described without saying how they are found: a symbol, a reserved word, a
name, a string, a numeral. At each point of a text the scanner takes the longest lexeme that begins there.
-/

namespace LoxScript

namespace Token

inductive IsLexeme : Kind → List Char → Prop where
  | symbol (s : Symbol) : IsLexeme (.symbol s) s.text.toList
  | keyword (k : Keyword) : IsLexeme (.keyword k) k.text.toList
  | identifier {c : Char} {rest : List Char} : isLetter c = true →
      (∀ d ∈ rest, isLetter d = true ∨ isDigit d = true) → (∀ k : Keyword, k.text.toList ≠ c :: rest) →
      IsLexeme (.identifier (.ofList (c :: rest))) (c :: rest)
  | string {contents : List Char} : '"' ∉ contents →
      IsLexeme (.string (.ofList contents)) ('"' :: contents ++ ['"'])
  | whole {digits : List Char} : digits ≠ [] → (∀ d ∈ digits, isDigit d = true) →
      IsLexeme (.number (Number.ofNumeral digits [])) digits
  | fractional {whole fraction : List Char} : whole ≠ [] → (∀ d ∈ whole, isDigit d = true) → fraction ≠ [] →
      (∀ d ∈ fraction, isDigit d = true) →
      IsLexeme (.number (Number.ofNumeral whole fraction)) (whole ++ '.' :: fraction)

end Token

/-! ## What lexemes begin with -/

/-- Symbols begin with none of the characters that words, numerals and strings begin with, nor with a blank. -/
theorem Symbol.text_cons {s : Symbol} {c : Char} {t : List Char} (h : s.text.toList = c :: t) :
    (isLetter c = false ∧ isDigit c = false ∧ c ≠ '"' ∧ isSpacing c = false ∧ c ≠ '\n') ∧
      (t = [] ∧ (c = '/' ∧ s = slash ∨ ofChar? c = some s ∨ ∃ long, extensible? c = some (long, s)) ∨
        t = ['='] ∧ ∃ short, extensible? c = some (s, short)) := by
  cases s <;> simp [text] at h <;> obtain ⟨rfl, rfl⟩ := h <;> simp [ofChar?, extensible?] <;> decide

theorem Symbol.extensible?_of_ofChar? {c : Char} {s : Symbol} (h : ofChar? c = some s) : extensible? c = none := by
  unfold ofChar? at h
  split at h <;> first | rfl | cases h

theorem Symbol.text_inj {s s' : Symbol} (h : s.text.toList = s'.text.toList) : s = s' := by
  cases s <;> cases s' <;> first | rfl | simp [text] at h

theorem Keyword.isLetter_of_mem {k : Keyword} {d : Char} (h : d ∈ k.text.toList) : isLetter d = true := by
  have letters : k.text.toList.all isLetter = true := by cases k <;> decide
  exact List.all_eq_true.1 letters d h

/-! ## The kind of a lexeme -/

namespace Token.IsLexeme

open Piece

variable {kind kind' : Kind} {c : Char} {text t : List Char}

theorem ne_nil (h : IsLexeme kind text) : text ≠ [] := by
  cases h with
  | symbol s => cases s <;> simp [Symbol.text]
  | keyword k => cases k <;> simp [Keyword.text]
  | identifier | string | fractional => simp
  | whole some => exact some

/-- What a lexeme is can be told from its first character. -/
theorem cases_cons (h : IsLexeme kind (c :: t)) :
    (∃ s : Symbol, s.text.toList = c :: t ∧ kind = .symbol s) ∨
      (isLetter c = true ∧ (∀ d ∈ t, isWordPart d = true) ∧ kind = wordKind (.ofList (c :: t))) ∨
      (c = '"' ∧ ∃ contents, '"' ∉ contents ∧ t = contents ++ ['"'] ∧ kind = .string (.ofList contents)) ∨
      (isDigit c = true ∧
        ((∀ d ∈ t, isDigit d = true) ∧ kind = .number (Number.ofNumeral (c :: t) []) ∨
          ∃ whole fraction, t = whole ++ '.' :: fraction ∧ (∀ d ∈ whole, isDigit d = true) ∧ fraction ≠ [] ∧
            (∀ d ∈ fraction, isDigit d = true) ∧ kind = .number (Number.ofNumeral (c :: whole) fraction))) := by
  generalize hl : c :: t = text at h
  cases h with
  | symbol s => exact .inl ⟨s, rfl, rfl⟩
  | keyword k =>
      have letters {d : Char} (hd : d ∈ c :: t) : isLetter d = true := by
        rw [hl] at hd
        exact Keyword.isLetter_of_mem hd
      refine .inr (.inl ⟨letters List.mem_cons_self, fun d hd => ?_, ?_⟩)
      · rw [isWordPart, letters (List.mem_cons_of_mem _ hd)]
        rfl
      · rw [wordKind, String.ofList_toList, Keyword.ofText?_text]
  | identifier letter parts noKeyword =>
      obtain ⟨rfl, rfl⟩ := List.cons.inj hl
      refine .inr (.inl ⟨letter, fun d hd => by simpa [isWordPart] using parts d hd, ?_⟩)
      unfold wordKind
      cases hk : Keyword.ofText? (.ofList (c :: t)) with
      | none => rfl
      | some k =>
          have same := congrArg String.toList (Keyword.text_of_ofText? hk)
          rw [String.toList_ofList] at same
          exact absurd same (noKeyword k)
  | string noQuote =>
      obtain ⟨rfl, rfl⟩ := List.cons.inj hl
      exact .inr (.inr (.inl ⟨rfl, _, noQuote, rfl, rfl⟩))
  | whole _ digits =>
      subst hl
      exact .inr (.inr (.inr ⟨digits c List.mem_cons_self,
        .inl ⟨fun d hd => digits d (List.mem_cons_of_mem _ hd), rfl⟩⟩))
  | @fractional whole fraction some digits some' digits' =>
      cases whole with
      | nil => exact absurd rfl some
      | cons d whole =>
          obtain ⟨rfl, rfl⟩ := List.cons.inj hl
          exact .inr (.inr (.inr ⟨digits c List.mem_cons_self,
            .inr ⟨whole, fraction, rfl, fun d hd => digits d (List.mem_cons_of_mem _ hd), some', digits', rfl⟩⟩))

theorem not_isDigit_of_isLetter (h : isLetter c = true) : isDigit c = false := by
  cases digit : isDigit c with
  | false => rfl
  | true =>
      simp only [isLetter, isDigit, Bool.or_eq_true, Bool.and_eq_true, decide_eq_true_eq, beq_iff_eq, Char.le_def,
        UInt32.le_iff_toNat_le] at h digit
      have bound : c.val.toNat ≤ 57 := digit.2
      rcases h with (⟨low, _⟩ | ⟨low, _⟩) | rfl
      · have : 97 ≤ c.val.toNat := low
        omega
      · have : 65 ≤ c.val.toNat := low
        omega
      · exact absurd bound (by decide)

/-- The lexemes that begin with a letter are words. -/
theorem of_letter (h : IsLexeme kind (c :: t)) (letter : isLetter c = true) :
    (∀ d ∈ t, isWordPart d = true) ∧ kind = wordKind (.ofList (c :: t)) := by
  obtain ⟨s, hs, _⟩ | ⟨_, word⟩ | ⟨rfl, _⟩ | ⟨digit, _⟩ := h.cases_cons
  · rw [(Symbol.text_cons hs).1.1] at letter
    cases letter
  · exact word
  · exact absurd letter (by decide)
  · rw [not_isDigit_of_isLetter letter] at digit
    cases digit

/-- The lexemes that begin with a digit are numerals. -/
theorem of_digit (h : IsLexeme kind (c :: t)) (digit : isDigit c = true) :
    (∀ d ∈ t, isDigit d = true) ∧ kind = .number (Number.ofNumeral (c :: t) []) ∨
      ∃ whole fraction, t = whole ++ '.' :: fraction ∧ (∀ d ∈ whole, isDigit d = true) ∧ fraction ≠ [] ∧
        (∀ d ∈ fraction, isDigit d = true) ∧ kind = .number (Number.ofNumeral (c :: whole) fraction) := by
  obtain ⟨s, hs, _⟩ | ⟨letter, _⟩ | ⟨rfl, _⟩ | ⟨_, numeral⟩ := h.cases_cons
  · rw [(Symbol.text_cons hs).1.2.1] at digit
    cases digit
  · rw [not_isDigit_of_isLetter letter] at digit
    cases digit
  · exact absurd digit (by decide)
  · exact numeral

theorem of_quote (h : IsLexeme kind ('"' :: t)) :
    ∃ contents, '"' ∉ contents ∧ t = contents ++ ['"'] ∧ kind = .string (.ofList contents) := by
  obtain ⟨s, hs, _⟩ | ⟨letter, _⟩ | ⟨_, string⟩ | ⟨digit, _⟩ := h.cases_cons
  · exact absurd rfl (Symbol.text_cons hs).1.2.2.1
  · exact absurd letter (by decide)
  · exact string
  · exact absurd digit (by decide)

theorem of_other (h : IsLexeme kind (c :: t)) (letter : isLetter c = false) (quote : c ≠ '"')
    (digit : isDigit c = false) : ∃ s : Symbol, s.text.toList = c :: t ∧ kind = .symbol s := by
  obtain symbol | ⟨letter', _⟩ | ⟨quote', _⟩ | ⟨digit', _⟩ := h.cases_cons
  · exact symbol
  · rw [letter] at letter'
    cases letter'
  · exact absurd quote' quote
  · rw [digit] at digit'
    cases digit'

/-- The value of a numeral is read from the digits before and after its point. -/
theorem numeral_kind (h : IsLexeme kind (c :: t)) (digit : isDigit c = true) :
    kind = .number (Number.ofNumeral ((c :: t).takeWhile isDigit) (((c :: t).dropWhile isDigit).drop 1)) := by
  have point : isDigit '.' = false := by decide
  rw [List.takeWhile_cons_of_pos digit, List.dropWhile_cons_of_pos digit]
  obtain ⟨digits, rfl⟩ | ⟨whole, fraction, rfl, digits, _, _, rfl⟩ := h.of_digit digit
  · rw [← List.append_nil t, List.takeWhile_append_of_pos digits, List.dropWhile_append_of_pos digits]
    rfl
  · rw [List.takeWhile_append_of_pos digits, List.dropWhile_append_of_pos digits]
    simp [point]

/-- No text is a lexeme of two kinds. -/
theorem kind_unique (h : IsLexeme kind text) (h' : IsLexeme kind' text) : kind = kind' := by
  cases text with
  | nil => exact absurd rfl h.ne_nil
  | cons c t =>
      cases letter : isLetter c with
      | true => rw [(h.of_letter letter).2, (h'.of_letter letter).2]
      | false =>
          by_cases quote : c = '"'
          · subst quote
            obtain ⟨contents, _, rfl, rfl⟩ := h.of_quote
            obtain ⟨contents', _, same, rfl⟩ := h'.of_quote
            rw [(List.append_left_inj _).1 same]
          · cases digit : isDigit c with
            | true => rw [h.numeral_kind digit, h'.numeral_kind digit]
            | false =>
                obtain ⟨s, hs, rfl⟩ := h.of_other letter quote digit
                obtain ⟨s', hs', rfl⟩ := h'.of_other letter quote digit
                rw [Symbol.text_inj (hs.trans hs'.symm)]

/-- A word is the lexeme of a reserved word or of an identifier. -/
theorem word (letter : isLetter c = true) (parts : ∀ d ∈ t, isWordPart d = true) :
    IsLexeme (wordKind (.ofList (c :: t))) (c :: t) := by
  unfold wordKind
  cases hk : Keyword.ofText? (.ofList (c :: t)) with
  | some k =>
      have same := congrArg String.toList (Keyword.text_of_ofText? hk)
      rw [String.toList_ofList] at same
      rw [← same]
      exact .keyword k
  | none =>
      refine .identifier letter (fun d hd => by simpa [isWordPart] using parts d hd) fun k same => ?_
      rw [← same, String.ofList_toList, Keyword.ofText?_text] at hk
      cases hk

end Token.IsLexeme

end LoxScript
