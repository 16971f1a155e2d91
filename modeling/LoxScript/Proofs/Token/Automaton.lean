import LoxScript.Session.Shell

/-!
# An automaton for texts that need more

Whether a text needs more lines can be told without tokens: an automaton reads the text once, from left to right, one
character at a time with one character of lookahead. It knows whether it is in code, in a comment or in a string, and
counts the brackets that it sees in code.
-/

namespace LoxScript

inductive Mode where
  | code
  | lineComment
  | blockComment (depth : Nat)
  | string
  deriving DecidableEq, Repr

/-- A text may not end inside of a block comment or a string. -/
def Mode.isOpen : Mode → Bool
  | code | lineComment => false
  | blockComment _ | string => true

/-- What the automaton has come to: the mode, and how many brackets were opened and closed in code. -/
structure Reading where
  mode : Mode
  opened : Nat
  closed : Nat
  deriving DecidableEq, Repr

namespace Reading

/-- The automaton. Where the next two characters make a mark that begins or ends a comment, both are read; else the
next character alone. All other characters of code are the same to it, whether or not tokens begin with them. -/
def read : Mode → Nat → Nat → List Char → Reading
  | mode, opened, closed, [] => ⟨mode, opened, closed⟩
  | .code, opened, closed, '/' :: '/' :: rest => read .lineComment opened closed rest
  | .code, opened, closed, '/' :: '*' :: rest => read (.blockComment 1) opened closed rest
  | .code, opened, closed, '"' :: rest => read .string opened closed rest
  | .code, opened, closed, c :: rest =>
      if c = '(' ∨ c = '\x7b' then read .code (opened + 1) closed rest
      else if c = ')' ∨ c = '\x7d' then read .code opened (closed + 1) rest
      else read .code opened closed rest
  | .lineComment, opened, closed, c :: rest =>
      read (if c = '\n' then .code else .lineComment) opened closed rest
  | .blockComment depth, opened, closed, '/' :: '*' :: rest => read (.blockComment (depth + 1)) opened closed rest
  | .blockComment depth, opened, closed, '*' :: '/' :: rest =>
      read (if depth = 1 then .code else .blockComment (depth - 1)) opened closed rest
  | .blockComment depth, opened, closed, _ :: rest => read (.blockComment depth) opened closed rest
  | .string, opened, closed, c :: rest => read (if c = '"' then .code else .string) opened closed rest

def ofString (text : String) : Reading :=
  read .code 0 0 text.toList

def outcome (r : Reading) : Bool × Nat × Nat :=
  (r.mode.isOpen, r.opened, r.closed)

/-! ## Runs of characters -/

variable {opened closed : Nat} {c : Char} {cs rest : List Char}

theorem read_slashes : read .code opened closed ('/' :: '/' :: rest) = read .lineComment opened closed rest := rfl

theorem read_opener : read .code opened closed ('/' :: '*' :: rest) = read (.blockComment 1) opened closed rest := rfl

theorem read_quote : read .code opened closed ('"' :: rest) = read .string opened closed rest := rfl

theorem read_inner_opener (depth : Nat) : read (.blockComment depth) opened closed ('/' :: '*' :: rest) =
    read (.blockComment (depth + 1)) opened closed rest := rfl

theorem read_inner_closer (depth : Nat) : read (.blockComment depth) opened closed ('*' :: '/' :: rest) =
    read (if depth = 1 then .code else .blockComment (depth - 1)) opened closed rest := rfl

/-- Where the next two characters make no mark, the next one alone is read. -/
theorem read_single :
    ((∀ more, c :: rest ≠ '/' :: '/' :: more) → (∀ more, c :: rest ≠ '/' :: '*' :: more) → c ≠ '"' →
      read .code opened closed (c :: rest) =
        if c = '(' ∨ c = '\x7b' then read .code (opened + 1) closed rest
        else if c = ')' ∨ c = '\x7d' then read .code opened (closed + 1) rest
        else read .code opened closed rest) ∧
    read .lineComment opened closed (c :: rest) =
      read (if c = '\n' then .code else .lineComment) opened closed rest ∧
    read .string opened closed (c :: rest) = read (if c = '"' then .code else .string) opened closed rest ∧
    ∀ depth, (∀ more, c :: rest ≠ '/' :: '*' :: more) → (∀ more, c :: rest ≠ '*' :: '/' :: more) →
      read (.blockComment depth) opened closed (c :: rest) = read (.blockComment depth) opened closed rest := by
  refine ⟨fun noLine noBlock noQuote => ?_, ?_, ?_, fun depth noOpener noCloser => ?_⟩
  · rw [read]
    · rintro more rfl rfl
      exact noLine more rfl
    · rintro more rfl rfl
      exact noBlock more rfl
    · exact noQuote
  · rw [read]
  · rw [read]
  · rw [read]
    · rintro more rfl rfl
      exact noOpener more rfl
    · rintro more rfl rfl
      exact noCloser more rfl

/-- A character of code that begins neither a comment nor a string. -/
theorem read_code (slash : c ≠ '/') (quote : c ≠ '"') : read .code opened closed (c :: rest) =
    if c = '(' ∨ c = '\x7b' then read .code (opened + 1) closed rest
    else if c = ')' ∨ c = '\x7d' then read .code opened (closed + 1) rest
    else read .code opened closed rest :=
  read_single.1 (fun _ same => slash (List.cons.inj same).1) (fun _ same => slash (List.cons.inj same).1) quote

def signs : List Char :=
  ['/', '"', '(', ')', '\x7b', '\x7d']

theorem read_plain (plain : c ∉ signs) : read .code opened closed (c :: rest) = read .code opened closed rest := by
  simp only [signs, List.mem_cons, List.not_mem_nil, or_false, not_or] at plain
  obtain ⟨slash, quote, leftParen, rightParen, leftBrace, rightBrace⟩ := plain
  rw [read_code slash quote, if_neg (by simp [leftParen, leftBrace]), if_neg (by simp [rightParen, rightBrace])]

theorem read_plains (plain : ∀ d ∈ cs, d ∉ signs) :
    read .code opened closed (cs ++ rest) = read .code opened closed rest := by
  induction cs with
  | nil => rfl
  | cons d cs ih =>
      rw [List.cons_append, read_plain (plain d List.mem_cons_self), ih fun e he => plain e (List.mem_cons_of_mem _ he)]

/-- A line comment is read up to the end of the line. -/
theorem read_lineComment : (read .lineComment opened closed cs).outcome =
    (read .code opened closed (cs.dropWhile (· != '\n'))).outcome := by
  induction cs with
  | nil => rfl
  | cons c cs ih =>
      rw [read_single.2.1]
      by_cases newline : c = '\n'
      · subst newline
        exact congrArg outcome (read_plain (by decide)).symm
      · simpa [newline] using ih

/-- A string is read up to the next quote, if there is one. -/
theorem read_string : (read .string opened closed cs).outcome =
    match cs.dropWhile (· != '"') with
    | [] => (true, opened, closed)
    | _ :: rest => (read .code opened closed rest).outcome := by
  induction cs with
  | nil => rfl
  | cons c cs ih =>
      rw [read_single.2.2.1]
      by_cases quote : c = '"'
      · simp [quote]
      · simpa [quote] using ih

/-- A block comment is read up to the place where it is closed, if there is one. -/
theorem read_blockComment (depth : Nat) : (read (.blockComment (depth + 1)) opened closed cs).outcome =
    match Piece.closeComment depth cs with
    | none => (true, opened, closed)
    | some (_, rest) => (read .code opened closed rest).outcome := by
  fun_induction Piece.closeComment depth cs with
  | case1 depth => rfl
  | case2 depth cs ih =>
      rw [read_inner_opener, ih]
      cases Piece.closeComment (depth + 1) cs <;> rfl
  | case3 cs => rw [read_inner_closer, if_pos rfl]
  | case4 depth cs ih =>
      rw [read_inner_closer, if_neg (by omega), Nat.add_sub_cancel, ih]
      cases Piece.closeComment depth cs <;> rfl
  | case5 depth c cs noOpener noCloser noCloser' ih =>
      rw [read_single.2.2.2 (depth + 1), ih]
      · cases Piece.closeComment depth cs <;> rfl
      · rintro more ⟨⟩
        exact noOpener more rfl rfl
      · rintro more ⟨⟩
        cases depth with
        | zero => exact noCloser more rfl rfl rfl
        | succ depth => exact noCloser' depth more rfl rfl rfl

end Reading

namespace Piece

open Reading (signs read_plain read_plains read_code)

def leavesOpen (p : Piece) : Bool :=
  p.fault?.any LexicalError.isOpen

def opens (p : Piece) : Bool :=
  (token? (p, 0)).any TokenList.isOpener

def closes (p : Piece) : Bool :=
  (token? (p, 0)).any TokenList.isCloser

/-- The automaton does on a text what the split of the text into its first piece and the rest says. -/
def Follows (text : List Char) (split : Piece × List Char) : Prop :=
  ∀ opened closed, (Reading.read .code opened closed text).outcome =
    let rest := (Reading.read .code (opened + split.1.opens.toNat) (closed + split.1.closes.toNat) split.2).outcome
    (split.1.leavesOpen || rest.1, rest.2)

theorem afterSlash_follows (rest : List Char) : Follows ('/' :: rest) (afterSlash rest) := by
  intro opened closed
  unfold afterSlash
  split
  · next after =>
      rw [Reading.read_slashes, Reading.read_lineComment]
      rfl
  · next after =>
      rw [Reading.read_opener, Reading.read_blockComment]
      cases closeComment 0 after <;> rfl
  · next noLine noBlock =>
      rw [Reading.read_single.1]
      · rfl
      · rintro more ⟨⟩
        exact noLine more rfl
      · rintro more ⟨⟩
        exact noBlock more rfl
      · decide

theorem afterQuote_follows (rest : List Char) : Follows ('"' :: rest) (afterQuote rest) := by
  intro opened closed
  unfold afterQuote
  rw [Reading.read_quote, Reading.read_string]
  cases rest.dropWhile (· != '"') <;> rfl

/-- Characters of a class to which no sign belongs are no signs. -/
theorem not_sign {p : Char → Bool} (apart : signs.any p = false) {c : Char} (h : p c = true) : c ∉ signs :=
  fun sign => Bool.false_ne_true (apart.symm.trans (List.any_eq_true.2 ⟨c, sign, h⟩))

/-- A text that begins with a piece without signs, which is neither left open nor a bracket. -/
theorem follows_plain {p : Piece} {front rest : List Char} (plain : ∀ d ∈ front, d ∉ signs)
    (whole : p.leavesOpen = false) (noOpener : p.opens = false) (noCloser : p.closes = false) :
    Follows (front ++ rest) (p, rest) := by
  intro opened closed
  rw [read_plains plain]
  simp [whole, noOpener, noCloser, Reading.outcome]

theorem wordKind_noBracket (s : String) (text : List Char) :
    (lexeme (wordKind s) text).opens = false ∧ (lexeme (wordKind s) text).closes = false := by
  unfold wordKind
  split <;> exact ⟨rfl, rfl⟩

theorem afterLetter_follows {c : Char} (letter : isLetter c = true) (rest : List Char) :
    Follows (c :: rest) (afterLetter c rest) := by
  have part : isWordPart c = true := by rw [isWordPart, letter, Bool.true_or]
  have word : ∀ d ∈ c :: rest.takeWhile isWordPart, d ∉ signs := by
    intro d hd
    refine not_sign (p := isWordPart) (by decide) ?_
    obtain rfl | hd := List.mem_cons.1 hd
    · exact part
    · exact List.all_eq_true.1 List.all_takeWhile d hd
  have bracket := wordKind_noBracket (.ofList (c :: rest.takeWhile isWordPart)) (c :: rest.takeWhile isWordPart)
  have follows : Follows (_ ++ rest.dropWhile isWordPart) _ := follows_plain word rfl bracket.1 bracket.2
  rwa [List.cons_append, List.takeWhile_append_dropWhile] at follows

/-- A numeral, whether or not a point and more digits belong to it. -/
theorem follows_number {value : Float} {front rest : List Char} (plain : ∀ d ∈ front, isDigit d = true ∨ d = '.') :
    Follows (front ++ rest) (lexeme (.number value) front, rest) :=
  follows_plain (fun d hd => (plain d hd).elim (not_sign (by decide)) fun point => point ▸ by decide) rfl rfl rfl

theorem afterDigit_follows {c : Char} (digit : isDigit c = true) (rest : List Char) :
    Follows (c :: rest) (afterDigit c rest) := by
  have digits : ∀ (c : Char) (more : List Char), isDigit c = true →
      ∀ d ∈ c :: more.takeWhile isDigit, isDigit d = true ∨ d = '.' := by
    intro c more digit d hd
    obtain rfl | hd := List.mem_cons.1 hd
    · exact .inl digit
    · exact .inl (List.all_eq_true.1 List.all_takeWhile d hd)
  have split : c :: rest = (c :: rest.takeWhile isDigit) ++ rest.dropWhile isDigit := by
    rw [List.cons_append, List.takeWhile_append_dropWhile]
  have whole := digits c rest digit
  rw [split]
  unfold afterDigit
  dsimp only
  split
  · next d after point =>
      split
      · next fraction =>
          rw [point, ← List.takeWhile_append_dropWhile (p := isDigit) (l := after)]
          have text : c :: rest.takeWhile isDigit ++ '.' :: d :: (after.takeWhile isDigit ++ after.dropWhile isDigit) =
              (c :: rest.takeWhile isDigit ++ '.' :: d :: after.takeWhile isDigit) ++ after.dropWhile isDigit := by
            simp
          rw [text, List.takeWhile_append_dropWhile]
          refine follows_number fun e he => ?_
          obtain he | he := List.mem_append.1 he
          · exact whole e he
          · obtain rfl | he := List.mem_cons.1 he
            · exact .inr rfl
            · exact digits d after fraction e he
      · rw [point]
        exact follows_number whole
  · exact follows_number whole

/-- No character of code but a slash, a quote or a bracket is a sign. -/
theorem not_sign_of_ofChar? {c : Char} (slash : c ≠ '/') (quote : c ≠ '"') (noSymbol : Symbol.ofChar? c = none) :
    c ∉ signs := by
  intro sign
  simp only [signs, List.mem_cons, List.not_mem_nil, or_false] at sign
  obtain rfl | rfl | rfl | rfl | rfl | rfl := sign
  · exact slash rfl
  · exact quote rfl
  all_goals cases noSymbol

theorem symbol_follows {c : Char} {s : Symbol} (symbol : Symbol.ofChar? c = some s) (rest : List Char) :
    Follows (c :: rest) (lexeme (.symbol s) [c], rest) := by
  intro opened closed
  unfold Symbol.ofChar? at symbol
  split at symbol
  all_goals
    cases symbol
    try rfl

theorem extensible_opens {c : Char} {long short : Symbol} (symbols : Symbol.extensible? c = some (long, short))
    (text : List Char) : ∀ s ∈ [long, short],
      (lexeme (.symbol s) text).opens = false ∧ (lexeme (.symbol s) text).closes = false := by
  unfold Symbol.extensible? at symbols
  split at symbols
  all_goals
    cases symbols
    try exact List.forall_mem_cons.2 ⟨⟨rfl, rfl⟩, List.forall_mem_cons.2 ⟨⟨rfl, rfl⟩, nofun⟩⟩

theorem afterOther_follows {c : Char} (slash : c ≠ '/') (quote : c ≠ '"') (rest : List Char) :
    Follows (c :: rest) (afterOther c rest) := by
  unfold afterOther
  split
  · next symbol => exact symbol_follows symbol rest
  · next long short single symbols =>
      have plain := not_sign_of_ofChar? slash quote single
      split
      · next after =>
          have bracket := extensible_opens symbols [c, '='] long List.mem_cons_self
          have plains : ∀ d ∈ [c, '='], d ∉ signs :=
            List.forall_mem_cons.2 ⟨plain, List.forall_mem_cons.2 ⟨by decide, nofun⟩⟩
          exact follows_plain plains rfl bracket.1 bracket.2
      · have bracket := extensible_opens symbols [c] short (List.mem_cons_of_mem _ List.mem_cons_self)
        have plains : ∀ d ∈ [c], d ∉ signs := List.forall_mem_cons.2 ⟨plain, nofun⟩
        exact follows_plain plains rfl bracket.1 bracket.2
  · next single double =>
      have plain : ∀ d ∈ [c], d ∉ signs :=
        List.forall_mem_cons.2 ⟨not_sign_of_ofChar? slash quote single, nofun⟩
      split
      · exact follows_plain plain rfl rfl rfl
      · split
        · exact follows_plain plain rfl rfl rfl
        · exact follows_plain plain rfl rfl rfl

theorem first_follows (c : Char) (rest : List Char) : Follows (c :: rest) (first c rest) := by
  unfold first
  split
  · next slash => exact slash ▸ afterSlash_follows rest
  · next slash =>
      split
      · next quote => exact quote ▸ afterQuote_follows rest
      · next quote =>
          split
          · next digit => exact afterDigit_follows digit rest
          · split
            · next letter => exact afterLetter_follows letter rest
            · exact afterOther_follows slash quote rest

end Piece

/-! ## Whole texts -/

/-- The automaton comes to what the pieces say. -/
theorem Reading.read_pieces (cs : List Char) (opened closed : Nat) : (read .code opened closed cs).outcome =
    ((pieces cs).any Piece.leavesOpen, opened + (pieces cs).countP Piece.opens,
      closed + (pieces cs).countP Piece.closes) := by
  fun_induction pieces cs generalizing opened closed with
  | case1 => rfl
  | case2 c rest step ih =>
      rw [Piece.first_follows c rest opened closed]
      dsimp only
      rw [ih]
      have count (p : Piece → Bool) (n : Nat) :
          n + (p step.1).toNat + (pieces step.2).countP p = n + (step.1 :: pieces step.2).countP p := by
        rw [List.countP_cons, Nat.add_assoc, Nat.add_comm (pieces step.2 |>.countP p)]
        cases p step.1 <;> rfl
      rw [List.any_cons]
      exact congrArg (Prod.mk _) (Prod.ext (count _ _) (count _ _))

namespace Scan

/-- What holds of a located piece whatever its line is counts alike with and without the lines. -/
theorem countP_locate {p : Token → Bool} {q : Piece → Bool}
    (same : ∀ piece line, (Piece.token? (piece, line)).any p = q piece) (line : Int) (ps : List Piece) :
    ((Piece.locate line ps).filterMap Piece.token?).countP p = ps.countP q := by
  induction ps generalizing line with
  | nil => rfl
  | cons piece ps ih =>
      rw [Piece.locate, List.countP_cons, ← ih (line + piece.newlines), ← same piece (line + piece.newlines)]
      cases token : Piece.token? (piece, line + piece.newlines) with
      | none => rw [List.filterMap_cons_none token]; rfl
      | some t => rw [List.filterMap_cons_some token, List.countP_cons]; rfl

theorem any_locate (line : Int) (ps : List Piece) :
    ((Piece.locate line ps).filterMap Piece.error?).any (fun e => e.cause.isOpen) = ps.any Piece.leavesOpen := by
  induction ps generalizing line with
  | nil => rfl
  | cons piece ps ih =>
      rw [Piece.locate, List.any_cons, ← ih (line + piece.newlines), Piece.leavesOpen, List.filterMap_cons,
        Piece.error?]
      cases piece.fault? <;> rfl

/-- Whether a bracket token opens or closes does not depend on its line. -/
theorem any_token? {p : Token → Bool} (kind : ∀ t t' : Token, t.kind = t'.kind → p t = p t') (piece : Piece)
    (line : Int) : (Piece.token? (piece, line)).any p = (Piece.token? (piece, 0)).any p := by
  cases piece with
  | lexeme => exact kind _ _ rfl
  | _ => rfl

theorem isOpener_congr (t t' : Token) (h : t.kind = t'.kind) : TokenList.isOpener t = TokenList.isOpener t' := by
  simp only [TokenList.isOpener, Token.isSymbol, h]

theorem isCloser_congr (t t' : Token) (h : t.kind = t'.kind) : TokenList.isCloser t = TokenList.isCloser t' := by
  simp only [TokenList.isCloser, Token.isSymbol, h]

/-- The automaton comes to what the tokens and the lexical errors say. -/
theorem outcome_ofString (text : String) : (Reading.ofString text).outcome =
    ((ofString text).errors.any (fun e => e.cause.isOpen), (ofString text).list.tokens.countP TokenList.isOpener,
      (ofString text).list.tokens.countP TokenList.isCloser) := by
  unfold Reading.ofString ofString ofChars
  rw [Reading.read_pieces, Nat.zero_add, Nat.zero_add]
  dsimp only
  rw [any_locate, countP_locate (any_token? isOpener_congr), countP_locate (any_token? isCloser_congr)]
  rfl

end Scan

/-- A text needs more just if the automaton ends inside of a string or a block comment, or has seen more brackets
opened than closed. -/
theorem needsMore_eq (text : String) : needsMore text =
    ((Reading.ofString text).mode.isOpen || decide ((Reading.ofString text).closed < (Reading.ofString text).opened)) := by
  have outcome := Scan.outcome_ofString text
  simp only [Reading.outcome, Prod.mk.injEq] at outcome
  obtain ⟨isOpen, opened, closed⟩ := outcome
  rw [needsMore, TokenList.hasOpenBracket, isOpen, opened, closed]

theorem Mode.isOpen_iff (mode : Mode) : mode.isOpen = true ↔ mode = .string ∨ ∃ depth, mode = .blockComment depth := by
  cases mode <;> simp [isOpen]

/-- The unfinished lines, joined to the next one by a newline, need more just if the automaton that reads them
ends in a string or a block comment, or has seen strictly more brackets opened than closed. -/
theorem needsMore_joinLine_iff (pending line : String) : needsMore (joinLine pending line) = true ↔
    let reading := Reading.ofString (if pending = "" then line else pending ++ "\n" ++ line)
    reading.mode = .string ∨ (∃ depth, reading.mode = .blockComment depth) ∨ reading.closed < reading.opened := by
  have joined : joinLine pending line = if pending = "" then line else pending ++ "\n" ++ line := by
    simp only [joinLine, String.isEmpty_iff]
  rw [needsMore_eq, joined, Bool.or_eq_true, Mode.isOpen_iff, decide_eq_true_iff, or_assoc]

/-- Brackets in strings and in comments do not count, unknown characters do no harm. -/
example : Reading.ofString "f(\")\", @ \x7b /* ( /* */ */ x\x7d // )" = ⟨.lineComment, 2, 1⟩ := by
  decide +kernel

end LoxScript
