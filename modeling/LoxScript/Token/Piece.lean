import LoxScript.Token.Basic

/-!
# Cutting a text into pieces

Every character of a text belongs to exactly one piece: the lexeme of a token, a blank, a newline, a comment,
a character that nothing begins with, or a string or block comment that the end of the text leaves open.
`pieces_text` says that the pieces, read in order, are the text.
-/

namespace LoxScript

/-- Decimal digits are the ASCII ones. -/
def isDigit (c : Char) : Bool :=
  '0' ≤ c && c ≤ '9'

/-- Letters are the ASCII ones and the underscore. -/
def isLetter (c : Char) : Bool :=
  ('a' ≤ c && c ≤ 'z') || ('A' ≤ c && c ≤ 'Z') || c == '_'

/-- Blanks between tokens, apart from the newline. -/
def isSpacing (c : Char) : Bool :=
  c == ' ' || c == '\r' || c == '\t'

inductive Piece where
  | lexeme (kind : Token.Kind) (text : List Char)
  | spacing (c : Char)
  | newline
  | lineComment (text : List Char)
  | blockComment (text : List Char)
  | unexpected (c : Char)
  | openString (text : List Char)
  | openComment (text : List Char)
  deriving DecidableEq, Repr

namespace Piece

def text : Piece → List Char
  | lexeme _ text => text
  | spacing c => [c]
  | newline => ['\n']
  | lineComment text => text
  | blockComment text => text
  | unexpected c => [c]
  | openString text => text
  | openComment text => text

def newlines (p : Piece) : Nat :=
  p.text.count '\n'

/-- Splits off the rest of a block comment in which `depth` inner comments are still open. Openers and
closers are paired from left to right without overlap. -/
def closeComment : Nat → List Char → Option (List Char × List Char)
  | _, [] => none
  | depth, '/' :: '*' :: rest =>
      (closeComment (depth + 1) rest).map fun (body, after) => ('/' :: '*' :: body, after)
  | 0, '*' :: '/' :: rest => some (['*', '/'], rest)
  | depth + 1, '*' :: '/' :: rest =>
      (closeComment depth rest).map fun (body, after) => ('*' :: '/' :: body, after)
  | depth, c :: rest =>
      (closeComment depth rest).map fun (body, after) => (c :: body, after)

def afterSlash (rest : List Char) : Piece × List Char :=
  match rest with
  | '/' :: after =>
      (lineComment ('/' :: '/' :: after.takeWhile (· != '\n')), after.dropWhile (· != '\n'))
  | '*' :: after =>
      match closeComment 0 after with
      | some (body, after) => (blockComment ('/' :: '*' :: body), after)
      | none => (openComment ('/' :: rest), [])
  | _ => (lexeme (.symbol .slash) ['/'], rest)

/-- The piece that begins with a quote. A string has no escapes and may span lines. -/
def afterQuote (rest : List Char) : Piece × List Char :=
  let contents := rest.takeWhile (· != '"')
  match rest.dropWhile (· != '"') with
  | [] => (openString ('"' :: rest), [])
  | _ :: after => (lexeme (.string (.ofList contents)) ('"' :: contents ++ ['"']), after)

/-- The numeral that begins with the digit `c`. A point belongs to it only before another digit. -/
def afterDigit (c : Char) (rest : List Char) : Piece × List Char :=
  let whole := c :: rest.takeWhile isDigit
  match rest.dropWhile isDigit with
  | '.' :: d :: after =>
      if isDigit d then
        let fraction := d :: after.takeWhile isDigit
        (lexeme (.number (Number.ofNumeral whole fraction)) (whole ++ '.' :: fraction),
          after.dropWhile isDigit)
      else
        (lexeme (.number (Number.ofNumeral whole [])) whole, '.' :: d :: after)
  | after => (lexeme (.number (Number.ofNumeral whole [])) whole, after)

/-- A word is a reserved word or else an identifier. -/
def wordKind (s : String) : Token.Kind :=
  match Keyword.ofText? s with
  | some k => .keyword k
  | none => .identifier s

def isWordPart (c : Char) : Bool :=
  isLetter c || isDigit c

def afterLetter (c : Char) (rest : List Char) : Piece × List Char :=
  let word := c :: rest.takeWhile isWordPart
  (lexeme (wordKind (.ofList word)) word, rest.dropWhile isWordPart)

/-- The symbol or single character that begins with `c`, which is neither a slash, a quote, a digit nor a
letter. -/
def afterOther (c : Char) (rest : List Char) : Piece × List Char :=
  match Symbol.ofChar? c, Symbol.extensible? c with
  | some s, _ => (lexeme (.symbol s) [c], rest)
  | none, some (long, short) =>
      match rest with
      | '=' :: after => (lexeme (.symbol long) [c, '='], after)
      | _ => (lexeme (.symbol short) [c], rest)
  | none, none =>
      if isSpacing c then (spacing c, rest)
      else if c = '\n' then (newline, rest)
      else (unexpected c, rest)

def first (c : Char) (rest : List Char) : Piece × List Char :=
  if c = '/' then afterSlash rest
  else if c = '"' then afterQuote rest
  else if isDigit c then afterDigit c rest
  else if isLetter c then afterLetter c rest
  else afterOther c rest

theorem closeComment_append {depth : Nat} {cs body after : List Char}
    (h : closeComment depth cs = some (body, after)) : body ++ after = cs := by
  fun_induction closeComment depth cs generalizing body after with
  | case1 => simp at h
  | case2 depth rest ih =>
      obtain ⟨⟨b, a⟩, hb, he⟩ := Option.map_eq_some_iff.1 h
      cases he
      simp [ih hb]
  | case3 rest => cases h; rfl
  | case4 depth rest ih =>
      obtain ⟨⟨b, a⟩, hb, he⟩ := Option.map_eq_some_iff.1 h
      cases he
      simp [ih hb]
  | case5 depth c rest _ _ _ ih =>
      obtain ⟨⟨b, a⟩, hb, he⟩ := Option.map_eq_some_iff.1 h
      cases he
      simp [ih hb]

theorem afterSlash_append (rest : List Char) :
    (afterSlash rest).1.text ++ (afterSlash rest).2 = '/' :: rest := by
  unfold afterSlash
  split
  · simp [text]
  · next after =>
      split
      · next body more h => simp [text, closeComment_append h]
      · simp [text]
  · simp [text]

theorem afterQuote_append (rest : List Char) :
    (afterQuote rest).1.text ++ (afterQuote rest).2 = '"' :: rest := by
  unfold afterQuote
  split
  · simp [text]
  · next q after h =>
      have hq : (q != '"') = false := by
        have := List.head?_dropWhile_not (· != '"') rest
        simpa [h] using this
      have hq : q = '"' := by simpa using hq
      subst hq
      have split := List.takeWhile_append_dropWhile (p := (· != '"')) (l := rest)
      rw [h] at split
      simpa [text] using split

theorem afterDigit_append (c : Char) (rest : List Char) :
    (afterDigit c rest).1.text ++ (afterDigit c rest).2 = c :: rest := by
  have split := List.takeWhile_append_dropWhile (p := isDigit) (l := rest)
  unfold afterDigit
  split
  · next d after h =>
      rw [h] at split
      split
      · have more := List.takeWhile_append_dropWhile (p := isDigit) (l := after)
        simp [text, more, split]
      · simpa [text] using split
  · simp [text]

theorem afterLetter_append (c : Char) (rest : List Char) :
    (afterLetter c rest).1.text ++ (afterLetter c rest).2 = c :: rest := by
  simp [afterLetter, text]

theorem afterOther_append (c : Char) (rest : List Char) :
    (afterOther c rest).1.text ++ (afterOther c rest).2 = c :: rest := by
  unfold afterOther
  split
  · simp [text]
  · split <;> simp [text]
  · split
    · simp [text]
    · split <;> simp_all [text]

theorem first_append (c : Char) (rest : List Char) :
    (first c rest).1.text ++ (first c rest).2 = c :: rest := by
  unfold first
  split
  · next h => subst h; exact afterSlash_append rest
  · split
    · next h => subst h; exact afterQuote_append rest
    · split
      · exact afterDigit_append c rest
      · split
        · exact afterLetter_append c rest
        · exact afterOther_append c rest

theorem first_text_ne_nil (c : Char) (rest : List Char) : (first c rest).1.text ≠ [] := by
  unfold first
  split
  · unfold afterSlash
    split <;> (try split) <;> simp [text]
  · split
    · unfold afterQuote
      split <;> simp [text]
    · split
      · unfold afterDigit
        split <;> (try split) <;> simp [text]
      · split
        · simp [afterLetter, text]
        · unfold afterOther
          split <;> (try split) <;> (try split) <;> simp [text]

theorem length_first (c : Char) (rest : List Char) : (first c rest).2.length ≤ rest.length := by
  have whole := congrArg List.length (first_append c rest)
  have some := List.length_pos_iff.2 (first_text_ne_nil c rest)
  simp only [List.length_append, List.length_cons] at whole
  omega

end Piece

def pieces : List Char → List Piece
  | [] => []
  | c :: rest =>
      let step := Piece.first c rest
      step.1 :: pieces step.2
termination_by text => text.length
decreasing_by
  have := Piece.length_first c rest
  simp only [List.length_cons]
  omega

/-- Nothing of a text is lost, added or moved when it is cut into pieces. -/
theorem pieces_text (cs : List Char) : (pieces cs).flatMap Piece.text = cs := by
  fun_induction pieces cs with
  | case1 => rfl
  | case2 c rest step ih => rw [List.flatMap_cons, ih, Piece.first_append]

end LoxScript
