import LoxScript.Proofs.Token.Account

/-!
# Texts put together

No piece straddles a line break behind a text that leaves nothing open, so two texts with a line break between them are
scanned one after the other. A lexeme does not reach beyond a blank either, whatever it stood next to in the text in
which it was found: lexemes with blanks between them are scanned as they are.
-/

namespace LoxScript

open Token (IsLexeme)

def Report.mapLine (f : Int → Int) : Report → Report
  | static line place message => static (f line) place message
  | runtime e => runtime { e with line := f e.line }
  | general message internal => general message internal

namespace Scan

/-! ## A line break between two texts -/

theorem endLine_line (a b : String) :
    (ofString (a ++ "\n" ++ b)).list.endLine = (ofString b).list.endLine + lineCount a := by
  simp [ofString, ofChars, lineCount]
  omega

/-- If a text leaves neither a string nor a comment open, then what is found in it and in the text behind the next line
break are the tokens and reports of both, in order, those of the second as many lines further down as the first one
takes. The mark for the end of the first text is gone, that of the second moves along. -/
theorem ofString_append_line {a : String}
    (closed : ∀ e ∈ (ofString a).errors, e.cause ≠ .openString ∧ e.cause ≠ .openComment) (b : String) :
    (ofString (a ++ "\n" ++ b)).list =
        ⟨(ofString a).list.tokens ++ (ofString b).list.tokens.map (Token.mapLine (· + (a.toList.count '\n' + 1 : Nat))),
          (ofString b).list.endLine + (a.toList.count '\n' + 1 : Nat)⟩ ∧
      (ofString (a ++ "\n" ++ b)).reports =
        (ofString a).reports ++ (ofString b).reports.map (Report.mapLine (· + (a.toList.count '\n' + 1 : Nat))) := by
  have mended : ∀ e ∈ (ofString a).errors, e.cause.isOpen = false := by
    intro e he
    obtain ⟨noString, noComment⟩ := closed e he
    cases h : e.cause with
    | unexpectedCharacter => rfl
    | openString => exact absurd h noString
    | openComment => exact absurd h noComment
  obtain ⟨errors, tokens⟩ := ofString_line (b := b) mended
  constructor
  · exact congrArg₂ TokenList.mk tokens (endLine_line a b)
  · unfold reports
    rw [errors, List.map_append, List.map_map, List.map_map]
    rfl

/-- A faulty character and a comment in front of the line break, an open string behind it. -/
theorem ofString_append_line_faulty :
    (∀ e ∈ (ofString "a # b\n// c").errors, e.cause ≠ .openString ∧ e.cause ≠ .openComment) ∧
      (ofString ("a # b\n// c" ++ "\n" ++ "d \"")).reports =
        (ofString "a # b\n// c").reports ++ (ofString "d \"").reports.map (Report.mapLine (· + (1 + 1 : Nat))) := by
  have errors : (ofString "a # b\n// c").errors = [⟨.unexpectedCharacter '#', 1, .line⟩] := by cbv
  have closed : ∀ e ∈ (ofString "a # b\n// c").errors, e.cause ≠ .openString ∧ e.cause ≠ .openComment := by
    rw [errors]
    decide
  exact ⟨closed, (ofString_append_line closed "d \"").2⟩

end Scan

/-! ## Blanks between lexemes -/

namespace Piece

theorem not_mem_of_all {p : Char → Bool} {c : Char} {cs : List Char} (all : ∀ d ∈ cs, p d = true) (h : p c = false) :
    c ∉ cs := by
  intro mem
  rw [all c mem] at h
  cases h

/-- Among the lexemes only strings have blanks in them. -/
theorem string_of_blank {kind : Token.Kind} {text : List Char} (h : IsLexeme kind text) (blank : ' ' ∈ text) :
    ∃ contents, '"' ∉ contents ∧ text = '"' :: contents ++ ['"'] := by
  obtain ⟨c, t, rfl⟩ := List.exists_cons_of_ne_nil h.ne_nil
  obtain ⟨s, hs, _⟩ | ⟨letter, parts, _⟩ | ⟨rfl, contents, noQuote, rfl, _⟩ | ⟨digit, numeral⟩ := h.cases_cons
  · have none : ' ' ∉ s.text.toList := by cases s <;> decide
    rw [hs] at none
    exact absurd blank none
  · have parts' : ∀ d ∈ c :: t, isWordPart d = true :=
      List.forall_mem_cons.2 ⟨by rw [isWordPart, letter, Bool.true_or], parts⟩
    exact absurd blank (not_mem_of_all parts' (by decide))
  · exact ⟨contents, noQuote, rfl⟩
  · have first : ' ' ≠ c := by
      rintro rfl
      exact absurd digit (by decide)
    obtain ⟨digits, _⟩ | ⟨whole, fraction, rfl, digits, _, digits', _⟩ := numeral
    · simp [first, not_mem_of_all digits (show isDigit ' ' = false by decide)] at blank
    · simp [first, not_mem_of_all digits (show isDigit ' ' = false by decide),
        not_mem_of_all digits' (show isDigit ' ' = false by decide)] at blank

/-- No lexeme begins with another one and a blank: a string has no quote but at its ends. -/
theorem not_blank_prefix {kind kind' : Token.Kind} {text longer : List Char} (h : IsLexeme kind text)
    (h' : IsLexeme kind' longer) : ¬ text ++ [' '] <+: longer := by
  rintro ⟨more, rfl⟩
  obtain ⟨contents, noQuote, same⟩ := string_of_blank h' (by simp)
  obtain ⟨c, t, rfl⟩ := List.exists_cons_of_ne_nil h.ne_nil
  obtain ⟨rfl, _⟩ := List.cons.inj same
  obtain ⟨contents', _, rfl, _⟩ := h.of_quote
  have inner : contents' ++ ['"', ' '] ++ more = contents ++ ['"'] := by simpa using same
  -- The blank is not the last character, so all that comes before it is among the contents.
  obtain rfl | ⟨more, last, rfl⟩ := List.eq_nil_or_concat' more
  · have ends := congrArg List.getLast? inner
    simp at ends
  · have inside := congrArg List.dropLast inner
    rw [← List.append_assoc, List.dropLast_concat, List.dropLast_concat] at inside
    exact noQuote (by rw [← inside]; simp)

/-- A slash that is a lexeme is one alone. -/
theorem eq_slash {kind : Token.Kind} {t : List Char} (h : IsLexeme kind ('/' :: t)) : t = [] := by
  obtain ⟨s, hs, _⟩ := h.of_other (by decide) (by decide) (by decide)
  obtain ⟨_, ⟨rfl, _⟩ | ⟨_, _, extended⟩⟩ := Symbol.text_cons hs
  · rfl
  · cases extended

/-- A lexeme stands in front of a blank, and at the end of a text. -/
theorem stands_lexeme {kind : Token.Kind} {text rest : List Char} (h : IsLexeme kind text)
    (stop : rest = [] ∨ [' '] <+: rest) : Stands (.lexeme kind text) rest := by
  have noComment : ∀ d, d ≠ ' ' → ¬ ['/', d] <+: text ++ rest := by
    rintro d noBlank ⟨more, same⟩
    obtain ⟨c, t, rfl⟩ := List.exists_cons_of_ne_nil h.ne_nil
    obtain ⟨rfl, inner⟩ := List.cons.inj same
    rw [eq_slash h] at inner
    obtain rfl | ⟨more', rfl⟩ := stop
    · cases inner
    · exact noBlank (List.cons.inj inner).1
  refine .lexeme h (noComment '/' (by decide)) (noComment '*' (by decide)) fun kind' longer h' front => ?_
  by_contra beyond
  obtain rfl | ⟨more, rfl⟩ := stop
  · rw [List.append_nil] at front
    exact beyond front.length_le
  · have blank : text ++ [' '] <+: text ++ ([' '] ++ more) := ⟨more, by simp⟩
    refine not_blank_prefix h h' (List.prefix_of_prefix_length_le blank front ?_)
    rw [List.length_append]
    exact Nat.lt_of_not_le beyond

def IsWord (part : List Piece) : Prop :=
  part = [] ∨ ∃ kind text, IsLexeme kind text ∧ part = [lexeme kind text]

theorem IsWord.splits {part ps : List Piece} {rest : List Char} (h : IsWord part) (stop : rest = [] ∨ [' '] <+: rest)
    (splits : Splits rest ps) : Splits (part.flatMap text ++ rest) (part ++ ps) := by
  obtain rfl | ⟨kind, t, lexeme, rfl⟩ := h
  · exact splits
  · rw [List.flatMap_singleton]
    exact .cons (stands_lexeme lexeme stop) splits

/-- With blanks between them, lexemes stand where they are put. -/
theorem splits_intercalate {parts : List (List Piece)} (words : ∀ part ∈ parts, IsWord part) :
    Splits ([' '].intercalate (parts.map (List.flatMap text))) ([spacing ' '].intercalate parts) := by
  induction parts with
  | nil => exact .nil
  | cons part parts ih =>
      obtain ⟨word, words⟩ := List.forall_mem_cons.1 words
      cases parts with
      | nil => simpa using word.splits (.inl rfl) .nil
      | cons part' parts =>
          have blank : Splits ([' '] ++ [' '].intercalate ((part' :: parts).map (List.flatMap text)))
              (spacing ' ' :: [spacing ' '].intercalate (part' :: parts)) := .cons (.spacing (by simp)) (ih words)
          rw [List.map_cons, List.map_cons, List.intercalate_cons_cons, List.intercalate_cons_cons, List.append_assoc,
            List.append_assoc]
          exact word.splits (.inr (List.prefix_append _ _)) blank

theorem filterMap_intercalate {β : Type} {f : Piece → Option β} (none : f (spacing ' ') = none)
    (parts : List (List Piece)) : ([spacing ' '].intercalate parts).filterMap f = parts.flatMap (List.filterMap f) := by
  induction parts with
  | nil => rfl
  | cons part parts ih =>
      cases parts with
      | nil => simp
      | cons part' parts =>
          rw [List.intercalate_cons_cons, List.filterMap_append, ih, List.filterMap_append,
            List.filterMap_cons_none none, List.filterMap_nil, List.append_nil]
          rfl

def word? : Piece → Option (Token.Kind × String)
  | lexeme kind text => some (kind, .ofList text)
  | _ => none

theorem map_filterMap_token? (line : Int) (ps : List Piece) :
    ((locate line ps).filterMap token?).map (fun t => (t.kind, t.lexeme)) = ps.filterMap word? := by
  induction ps generalizing line with
  | nil => rfl
  | cons p ps ih =>
      rw [locate]
      cases p <;> simp [List.filterMap_cons, token?, word?, ih]

theorem map_filterMap_error? (line : Int) (ps : List Piece) :
    ((locate line ps).filterMap error?).map Located.cause = ps.filterMap fault? := by
  induction ps generalizing line with
  | nil => rfl
  | cons p ps ih =>
      rw [locate]
      cases p <;> simp [List.filterMap_cons, error?, fault?, ih]

end Piece

theorem Splits.isLexeme {cs : List Char} {ps : List Piece} (h : Splits cs ps) {kind : Token.Kind} {text : List Char}
    (mem : Piece.lexeme kind text ∈ ps) : IsLexeme kind text := by
  induction h with
  | nil => cases mem
  | cons stands _ ih =>
      obtain rfl | mem := List.mem_cons.1 mem
      · cases stands with
        | lexeme h => exact h
      · exact ih mem

namespace TokenList

/-- The lexemes of the tokens, with that of the mark for the end of input, which is empty, or without it. -/
def lexemes (ts : TokenList) (withEnd : Bool) : List String :=
  ts.tokens.map Token.lexeme ++ if withEnd then [""] else []

/-- The pieces that the lexemes are, each by itself. -/
def parts (ts : TokenList) (withEnd : Bool) : List (List Piece) :=
  ts.tokens.map (fun t => [.lexeme t.kind t.lexeme.toList]) ++ if withEnd then [[]] else []

variable {ts : TokenList} {withEnd : Bool}

theorem isWord_of_mem_parts (lexemes : ∀ t ∈ ts.tokens, IsLexeme t.kind t.lexeme.toList) {part : List Piece}
    (h : part ∈ ts.parts withEnd) : Piece.IsWord part := by
  obtain mem | mem := List.mem_append.1 h
  · obtain ⟨t, ht, rfl⟩ := List.mem_map.1 mem
    exact .inr ⟨_, _, lexemes t ht, rfl⟩
  · cases withEnd with
    | false => cases mem
    | true => exact .inl (List.mem_singleton.1 mem)

theorem pieces_intercalate (lexemes : ∀ t ∈ ts.tokens, IsLexeme t.kind t.lexeme.toList) :
    pieces (" ".intercalate (ts.lexemes withEnd)).toList = [.spacing ' '].intercalate (ts.parts withEnd) := by
  have text : (ts.lexemes withEnd).map String.toList = (ts.parts withEnd).map (List.flatMap Piece.text) := by
    rw [TokenList.lexemes, parts, List.map_append, List.map_append, List.map_map, List.map_map]
    cases withEnd <;> simp [Function.comp_def, Piece.text]
  rw [String.toList_intercalate, text]
  exact (splits_iff.1 (Piece.splits_intercalate fun part h => isWord_of_mem_parts lexemes h)).symm

end TokenList

namespace Scan

theorem isLexeme_of_mem {source : String} {t : Token} (h : t ∈ (ofString source).list.tokens) :
    IsLexeme t.kind t.lexeme.toList := by
  obtain ⟨⟨p, line⟩, located, found⟩ := List.mem_filterMap.1 h
  have mem := Piece.fst_mem_of_mem_locate located
  cases p with
  | lexeme kind text =>
      cases found
      rw [String.toList_ofList]
      exact (splits_iff.2 rfl).isLexeme mem
  | _ => cases found

/-- The lexemes of the tokens of any text, with single blanks between them, are scanned without errors as the same
lexemes of the same kinds in the same order, a kind being a type and the literal. -/
theorem ofString_lexemes (source : String) (withEnd : Bool) :
    let spaced := " ".intercalate ((ofString source).list.lexemes withEnd)
    (ofString spaced).reports = [] ∧
      (ofString spaced).list.tokens.map (fun t => (t.kind, t.lexeme)) =
        (ofString source).list.tokens.map fun t => (t.kind, t.lexeme) := by
  intro spaced
  have lexemes : ∀ t ∈ (ofString source).list.tokens, IsLexeme t.kind t.lexeme.toList := fun t => isLexeme_of_mem
  have cut : pieces spaced.toList = [.spacing ' '].intercalate ((ofString source).list.parts withEnd) :=
    TokenList.pieces_intercalate lexemes
  constructor
  · have quiet : ∀ part ∈ (ofString source).list.parts withEnd, part.filterMap Piece.fault? = [] := by
      intro part mem
      obtain rfl | ⟨_, _, _, rfl⟩ := TokenList.isWord_of_mem_parts lexemes mem <;> rfl
    have causes := Piece.map_filterMap_error? 1 (pieces spaced.toList)
    rw [cut, Piece.filterMap_intercalate rfl, List.flatMap_eq_nil_iff.2 quiet] at causes
    rw [reports, ofString, ofChars, cut, List.map_eq_nil_iff.1 causes]
    rfl
  · refine (Piece.map_filterMap_token? 1 (pieces spaced.toList)).trans ?_
    rw [cut, Piece.filterMap_intercalate rfl, TokenList.parts, List.flatMap_append, List.flatMap_map]
    cases withEnd <;> simp [Piece.word?, List.map_eq_flatMap]

end Scan

end LoxScript
