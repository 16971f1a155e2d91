import LoxScript.Literal
import LoxScript.Proofs.Number.Positional
import LoxScript.Proofs.Token.Join

/-!
# Written literals scanned again

Strings are written with quotes around them, as they are in a program. Numbers are written as programs show them, which
is a numeral unless it has an exponent: that is no part of a numeral, and what comes behind it is scanned as further
tokens.
-/

namespace LoxScript

open Token (IsLexeme)
open Number (Numeral)

namespace Scan

def Single (kind : Token.Kind) (text : String) : Prop :=
  (ofString text).reports = [] ∧ ∃ t, (ofString text).list.tokens = [t] ∧ t.kind = kind

theorem pieces_of_isLexeme {kind : Token.Kind} {text : List Char} (h : IsLexeme kind text) :
    pieces text = [.lexeme kind text] := by
  have splits : Splits (text ++ []) [.lexeme kind text] := .cons (Piece.stands_lexeme h (.inl rfl)) .nil
  rw [List.append_nil] at splits
  exact (splits_iff.1 splits).symm

/-- A lexeme by itself is scanned as its token. -/
theorem single_of_isLexeme {kind : Token.Kind} {text : List Char} (h : IsLexeme kind text) :
    Single kind (.ofList text) := by
  unfold Single reports ofString ofChars
  rw [String.toList_ofList, pieces_of_isLexeme h]
  exact ⟨rfl, _, rfl, rfl⟩

/-! ## Numerals -/

theorem isLexeme_numeral (n : Numeral) : IsLexeme (.number n.read) n.text := by
  obtain ⟨whole, fraction, some_digit, digits, digits'⟩ := n
  cases fraction with
  | nil => exact .whole some_digit digits
  | cons c fraction => exact .fractional some_digit digits (List.cons_ne_nil _ _) digits'

theorem takeWhile_digits {digits : List Char} (all : ∀ d ∈ digits, isDigit d = true) {c : Char}
    (stop : isDigit c = false) (rest : List Char) : (digits ++ c :: rest).takeWhile isDigit = digits := by
  rw [List.takeWhile_append_of_pos all, List.takeWhile_cons_of_neg (by simp [stop]), List.append_nil]

theorem dropWhile_digits {digits : List Char} (all : ∀ d ∈ digits, isDigit d = true) {c : Char}
    (stop : isDigit c = false) (rest : List Char) : (digits ++ c :: rest).dropWhile isDigit = c :: rest := by
  rw [List.dropWhile_append_of_pos all, List.dropWhile_cons_of_neg (by simp [stop])]

theorem first_digit {d : Char} (digit : isDigit d = true) (text : List Char) :
    Piece.first d text = Piece.afterDigit d text := by
  have quote : d ≠ '"' := by
    rintro rfl
    exact absurd digit (by decide)
  rw [Piece.first, if_neg (Piece.not_slash_of_isDigit digit), if_neg quote, if_pos digit]

section Letter

variable {c : Char} {rest : List Char} (letter : isLetter c = true)

include letter

theorem first_letter : Piece.first c rest = Piece.afterLetter c rest := by
  have slash : c ≠ '/' := by
    rintro rfl
    exact absurd letter (by decide)
  have quote : c ≠ '"' := by
    rintro rfl
    exact absurd letter (by decide)
  have digit : ¬ isDigit c = true := by simp [IsLexeme.not_isDigit_of_isLetter letter]
  rw [Piece.first, if_neg slash, if_neg quote, if_neg digit, if_pos letter]

/-- Digits end in front of a letter. -/
theorem afterDigit_letter {d : Char} {whole : List Char} (digits : ∀ e ∈ whole, isDigit e = true) :
    ∃ kind text, Piece.afterDigit d (whole ++ c :: rest) = (.lexeme kind text, c :: rest) := by
  have stop := IsLexeme.not_isDigit_of_isLetter letter
  have point : c ≠ '.' := by
    rintro rfl
    exact absurd letter (by decide)
  unfold Piece.afterDigit
  rw [takeWhile_digits digits stop, dropWhile_digits digits stop]
  split
  · next same =>
      obtain ⟨rfl, -⟩ := List.cons.inj same
      exact absurd rfl point
  · exact ⟨_, _, rfl⟩

/-- So do digits with a point among them. -/
theorem afterDigit_point_letter {d e : Char} {whole fraction : List Char} (digits : ∀ e ∈ whole, isDigit e = true)
    (digits' : ∀ f ∈ e :: fraction, isDigit f = true) : ∃ kind text,
      Piece.afterDigit d (whole ++ '.' :: e :: (fraction ++ c :: rest)) = (.lexeme kind text, c :: rest) := by
  have stop := IsLexeme.not_isDigit_of_isLetter letter
  obtain ⟨digit, digits'⟩ := List.forall_mem_cons.1 digits'
  unfold Piece.afterDigit
  rw [takeWhile_digits digits (by decide), dropWhile_digits digits (by decide)]
  show ∃ kind text, (if isDigit e = true then _ else _) = (Piece.lexeme kind text, c :: rest)
  rw [if_pos digit, dropWhile_digits digits' stop]
  exact ⟨_, _, rfl⟩

theorem pieces_digit_letter {d : Char} {text : List Char} (digit : isDigit d = true)
    (h : ∃ kind lexeme, Piece.afterDigit d text = (.lexeme kind lexeme, c :: rest)) :
    ∃ kind lexeme kind' lexeme' ps,
      pieces (d :: text) = .lexeme kind lexeme :: .lexeme kind' lexeme' :: ps := by
  obtain ⟨kind, lexeme, after⟩ := h
  rw [pieces, first_digit digit, after]
  dsimp only
  rw [pieces, first_letter letter]
  exact ⟨_, _, _, _, _, rfl⟩

/-- A letter behind a numeral begins another token. -/
theorem pieces_numeral_letter (n : Numeral) : ∃ kind lexeme kind' lexeme' ps,
    pieces (n.text ++ c :: rest) = .lexeme kind lexeme :: .lexeme kind' lexeme' :: ps := by
  obtain ⟨whole, fraction, some_digit, digits, digits'⟩ := n
  obtain ⟨d, whole, rfl⟩ := List.exists_cons_of_ne_nil some_digit
  obtain ⟨digit, digits⟩ := List.forall_mem_cons.1 digits
  cases fraction with
  | nil => exact pieces_digit_letter letter digit (afterDigit_letter letter digits)
  | cons e fraction =>
      have split : (d :: whole ++ '.' :: e :: fraction) ++ c :: rest =
          d :: (whole ++ '.' :: e :: (fraction ++ c :: rest)) := List.append_assoc _ _ _
      rw [Numeral.text, split]
      exact pieces_digit_letter letter digit (afterDigit_point_letter letter digits digits')

/-- So the text is not that of a single token. -/
theorem not_single_numeral_letter (n : Numeral) (kind : Token.Kind) :
    ¬ Single kind (.ofList (n.text ++ c :: rest)) := by
  intro single
  obtain ⟨-, t, tokens, -⟩ := single
  unfold ofString ofChars at tokens
  obtain ⟨_, _, _, _, _, cut⟩ := pieces_numeral_letter letter n
  rw [String.toList_ofList, cut] at tokens
  cases tokens

end Letter

/-! ## Literals -/

theorem number_of_isLexeme {x : Float} {text : List Char} (h : IsLexeme (.number x) text) :
    ∃ whole fraction, x = Number.ofNumeral whole fraction := by
  generalize same : Token.Kind.number x = kind at h
  cases h with
  | whole | fractional =>
      cases same
      exact ⟨_, _, rfl⟩
  | symbol | keyword | identifier | string => cases same

theorem string_of_isLexeme {s : String} {text : List Char} (h : IsLexeme (.string s) text) : '"' ∉ s.toList := by
  generalize same : Token.Kind.string s = kind at h
  cases h with
  | string noQuote =>
      cases same
      rwa [String.toList_ofList]
  | symbol | keyword | identifier | whole | fractional => cases same

/-- A string between quotes is scanned as that string. -/
theorem single_string {s : String} (noQuote : '"' ∉ s.toList) : Single (.string s) (Literal.string s).text := by
  have text : (Literal.string s).text = .ofList ('"' :: s.toList ++ ['"']) := by
    apply String.toList_inj.1
    simp [Literal.text]
  have lexeme := single_of_isLexeme (.string noQuote)
  rw [String.ofList_toList] at lexeme
  rw [text]
  exact lexeme

/-- A double that is read from a numeral and is finite is scanned from its text if it is written as a numeral. -/
theorem single_number_iff {whole fraction : List Char} {x : Float} (read : x = Number.ofNumeral whole fraction)
    (finite : x.isFinite = true) :
    Single (.number x) (Literal.number x).text ↔ x = 0 ∨ 0.0001 ≤ x ∧ x < 1e16 := by
  subst read
  cases Number.form_of_numeral finite with
  | inl zero =>
      have value := Number.eq_zero_of_form zero
      have written : Number.plainText 0 = .ofList ['0'] := Number.plainText_of_zero Number.form_zero
      have isLexeme_zero : IsLexeme (.number (Number.ofNumeral ['0'] [])) ['0'] :=
        .whole (List.cons_ne_nil _ _) (Number.isDigit_replicate 1)
      have again : Number.ofNumeral ['0'] [] = 0 := by decide +kernel
      have single := single_of_isLexeme isLexeme_zero
      rw [value, Literal.text, written]
      rw [again] at single
      exact iff_of_true single (.inl rfl)
  | inr positive =>
      obtain ⟨b, form⟩ := positive
      by_cases range : 0.0001 ≤ Number.ofNumeral whole fraction ∧ Number.ofNumeral whole fraction < 1e16
      · obtain ⟨n, text, same⟩ := Number.plainText_positional form range.1 range.2
        have single := single_of_isLexeme (isLexeme_numeral n)
        rw [same, ← text] at single
        exact iff_of_true single (.inr range)
      · obtain ⟨n, tail, text⟩ := Number.plainText_scientific form range
        have letter : isLetter 'e' = true := by decide
        have several : ¬ Single (.number (Number.ofNumeral whole fraction))
            (Number.plainText (Number.ofNumeral whole fraction)) := by
          rw [text]
          exact not_single_numeral_letter letter n _
        apply iff_of_false several
        intro among
        cases among with
        | inl zero =>
            rw [zero, Number.form_zero] at form
            cases form
        | inr inside => exact range inside

/-- The strings and the finite numbers of the tokens of any text are written so that scanning what is written gives each
back as the only token, but for numbers that are written with an exponent: those below the double nearest to `0.0001`,
except zero, and those from `10 ^ 16` on. -/
theorem literal_rescanned (source : String) (t : Token) (h : t ∈ (ofString source).list.tokens) :
    (∀ s, t.kind = .string s → Single (.string s) (Literal.string s).text) ∧
      ∀ x, t.kind = .number x → x.isFinite = true →
        (Single (.number x) (Literal.number x).text ↔ x = 0 ∨ 0.0001 ≤ x ∧ x < 1e16) := by
  have lexeme := isLexeme_of_mem h
  constructor
  · intro s kind
    rw [kind] at lexeme
    exact single_string (string_of_isLexeme lexeme)
  · intro x kind finite
    rw [kind] at lexeme
    obtain ⟨whole, fraction, read⟩ := number_of_isLexeme lexeme
    exact single_number_iff read finite

/-- A string over two lines and a number. -/
theorem literal_rescanned_lines :
    let tokens : List Token := [⟨.string "a\nb", "\"a\nb\"", 2⟩, ⟨.number 0.5, "0.5", 2⟩]
    (ofString "\"a\nb\" 0.5").list.tokens = tokens ∧ Single (.string "a\nb") "\"a\nb\"" ∧
      Float.isFinite 0.5 = true ∧ Single (.number 0.5) (Literal.number 0.5).text := by
  intro tokens
  have scanned : (ofString "\"a\nb\" 0.5").list.tokens = tokens := by decide +kernel
  have found {t : Token} (h : t ∈ tokens) : t ∈ (ofString "\"a\nb\" 0.5").list.tokens := scanned ▸ h
  have finite : Float.isFinite 0.5 = true := by decide +kernel
  have range : (0.0001 : Float) ≤ 0.5 ∧ (0.5 : Float) < 1e16 := by decide +kernel
  have string := (literal_rescanned _ ⟨.string "a\nb", "\"a\nb\"", 2⟩ (found (by simp [tokens]))).1 _ rfl
  have number := (literal_rescanned _ ⟨.number 0.5, "0.5", 2⟩ (found (by simp [tokens]))).2 _ rfl finite
  exact ⟨scanned, string, finite, number.2 (.inr range)⟩

/-- A number of seventeen digits is written with an exponent, and what is written is scanned as a number, a name, a sign
and another number. -/
theorem literal_rescanned_exponent :
    (ofString "10000000000000000").list.tokens = [⟨.number 1e16, "10000000000000000", 1⟩] ∧
      Float.isFinite 1e16 = true ∧ (Literal.number 1e16).text = "1e+16" ∧
      ¬ Single (.number 1e16) (Literal.number 1e16).text := by
  have written : (Literal.number 1e16).text = "1e+16" := by decide +kernel
  have tokens : (ofString "1e+16").list.tokens =
      [⟨.number 1, "1", 1⟩, ⟨.identifier "e", "e", 1⟩, ⟨.symbol .plus, "+", 1⟩, ⟨.number 16, "16", 1⟩] := by
    decide +kernel
  refine ⟨by decide +kernel, by decide +kernel, written, ?_⟩
  intro single
  obtain ⟨-, t, alone, -⟩ := single
  rw [written, tokens] at alone
  cases alone

end Scan

end LoxScript
