import LoxScript.Proofs.Grammar.Moved
import LoxScript.Token.Scan

/-!
# Texts one after the other

A text that leaves no string and no comment open ends in front of the next line: the pieces of two texts with a line
break between them are the pieces of the first, the line break, and the pieces of the second.
-/

namespace LoxScript

def Located.mapLine {ε : Type} (f : Int → Int) (e : Located ε) : Located ε :=
  { e with line := f e.line }

namespace Piece

def IsOpen : Piece → Prop
  | openString _ | openComment _ => True
  | _ => False

variable {rest after : List Char} {c : Char}

theorem takeWhile_line {p : Char → Bool} (h : p '\n' = false) :
    (rest ++ '\n' :: after).takeWhile p = rest.takeWhile p := by
  induction rest with
  | nil => simp [h]
  | cons c rest ih => by_cases hc : p c <;> simp [hc, ih]

theorem dropWhile_line {p : Char → Bool} (h : p '\n' = false) :
    (rest ++ '\n' :: after).dropWhile p = rest.dropWhile p ++ '\n' :: after := by
  induction rest with
  | nil => simp [h]
  | cons c rest ih => by_cases hc : p c <;> simp [hc, ih]

/-- Where a character that ends the search is found, it does not matter what follows. -/
theorem takeWhile_dropWhile_more {p : Char → Bool} {q : Char} {found : List Char}
    (h : rest.dropWhile p = q :: found) (more : List Char) :
    (rest ++ more).takeWhile p = rest.takeWhile p ∧ (rest ++ more).dropWhile p = q :: (found ++ more) := by
  induction rest with
  | nil => cases h
  | cons c rest ih =>
      by_cases hc : p c
      · rw [List.dropWhile_cons_of_pos hc] at h
        simp [hc, ih h]
      · rw [List.dropWhile_cons_of_neg hc] at h
        cases h
        simp [hc]

theorem closeComment_more {depth : Nat} {cs body rest : List Char} (h : closeComment depth cs = some (body, rest))
    (more : List Char) : closeComment depth (cs ++ more) = some (body, rest ++ more) := by
  fun_induction closeComment depth cs generalizing body rest with
  | case1 => simp at h
  | case2 depth cs ih =>
      obtain ⟨⟨b, a⟩, hb, he⟩ := Option.map_eq_some_iff.1 h
      cases he
      simp [closeComment, ih hb]
  | case3 cs =>
      cases h
      rfl
  | case4 depth cs ih =>
      obtain ⟨⟨b, a⟩, hb, he⟩ := Option.map_eq_some_iff.1 h
      cases he
      simp [closeComment, ih hb]
  | case5 depth c cs h₁ h₂ h₃ ih =>
      obtain ⟨⟨b, a⟩, hb, he⟩ := Option.map_eq_some_iff.1 h
      cases he
      cases cs with
      | nil => simp [closeComment] at hb
      | cons d cs =>
          have step := ih hb
          have noOpener : ∀ rest, c = '/' → d :: (cs ++ more) = '*' :: rest → False := by
            rintro _ rfl same
            exact h₁ cs rfl (by rw [(List.cons.inj same).1])
          have noCloser : c = '*' → d ≠ '/' := by
            rintro rfl rfl
            cases depth with
            | zero => exact h₂ cs rfl rfl rfl
            | succ depth => exact h₃ depth cs rfl rfl rfl
          rw [List.cons_append, List.cons_append, closeComment]
          · rw [List.cons_append] at step
            rw [step]
            rfl
          · exact noOpener
          · rintro _ _ rfl same
            exact noCloser rfl (List.cons.inj same).1
          · rintro _ _ _ rfl same
            exact noCloser rfl (List.cons.inj same).1

theorem afterSlash_star (rest : List Char) : afterSlash ('*' :: rest) =
    match closeComment 0 rest with
    | some (body, after) => (blockComment ('/' :: '*' :: body), after)
    | none => (openComment ('/' :: '*' :: rest), []) := rfl

theorem afterSlash_line (h : ¬ (afterSlash rest).1.IsOpen) :
    afterSlash (rest ++ '\n' :: after) = ((afterSlash rest).1, (afterSlash rest).2 ++ '\n' :: after) := by
  match rest with
  | [] => rfl
  | c :: rest =>
      by_cases line : c = '/'
      · subst line
        simp [afterSlash, takeWhile_line, dropWhile_line]
      · by_cases block : c = '*'
        · subst block
          rw [afterSlash_star] at h
          rw [List.cons_append, afterSlash_star, afterSlash_star]
          cases hc : closeComment 0 rest with
          | none =>
              rw [hc] at h
              exact absurd trivial h
          | some closed => rw [closeComment_more hc]
        · simp [afterSlash, line, block]

theorem afterQuote_line (h : ¬ (afterQuote rest).1.IsOpen) :
    afterQuote (rest ++ '\n' :: after) = ((afterQuote rest).1, (afterQuote rest).2 ++ '\n' :: after) := by
  unfold afterQuote at h ⊢
  dsimp only at h ⊢
  cases hd : rest.dropWhile (· != '"') with
  | nil =>
      rw [hd] at h
      exact absurd trivial h
  | cons q closed =>
      obtain ⟨contents, closing⟩ := takeWhile_dropWhile_more hd ('\n' :: after)
      rw [contents, closing]

theorem afterDigit_line :
    afterDigit c (rest ++ '\n' :: after) = ((afterDigit c rest).1, (afterDigit c rest).2 ++ '\n' :: after) := by
  unfold afterDigit
  rw [takeWhile_line (by decide), dropWhile_line (by decide)]
  match rest.dropWhile isDigit with
  | [] => rfl
  | [d] =>
      by_cases point : d = '.'
      · subst point
        rfl
      · simp [point]
  | d :: e :: more =>
      by_cases point : d = '.'
      · subst point
        have noDigit : isDigit '\n' = false := by decide
        by_cases digit : isDigit e <;> simp [digit, takeWhile_line noDigit, dropWhile_line noDigit]
      · simp [point]

theorem afterLetter_line :
    afterLetter c (rest ++ '\n' :: after) = ((afterLetter c rest).1, (afterLetter c rest).2 ++ '\n' :: after) := by
  unfold afterLetter
  rw [takeWhile_line (by decide), dropWhile_line (by decide)]

theorem afterOther_line :
    afterOther c (rest ++ '\n' :: after) = ((afterOther c rest).1, (afterOther c rest).2 ++ '\n' :: after) := by
  unfold afterOther
  cases Symbol.ofChar? c with
  | some s => rfl
  | none =>
      cases Symbol.extensible? c with
      | some s =>
          match rest with
          | [] => rfl
          | d :: rest =>
              by_cases eq : d = '='
              · subst eq
                rfl
              · simp [eq]
      | none =>
          dsimp only
          split
          · rfl
          · split <;> rfl

/-- The piece that a text begins with is the same if a line break and more text follow, unless it was cut off. -/
theorem first_line (h : ¬ (first c rest).1.IsOpen) :
    first c (rest ++ '\n' :: after) = ((first c rest).1, (first c rest).2 ++ '\n' :: after) := by
  unfold first at h ⊢
  split
  · next slash =>
      rw [if_pos slash] at h
      exact afterSlash_line h
  · next slash =>
      rw [if_neg slash] at h
      split
      · next quote =>
          rw [if_pos quote] at h
          exact afterQuote_line h
      · split
        · exact afterDigit_line
        · split
          · exact afterLetter_line
          · exact afterOther_line

/-- Pieces that begin further down end further down. -/
theorem locate_add (line k : Int) (ps : List Piece) :
    locate (line + k) ps = (locate line ps).map fun located => (located.1, located.2 + k) := by
  induction ps generalizing line with
  | nil => rfl
  | cons p ps ih =>
      have next : line + k + p.newlines = line + p.newlines + k := by omega
      simp only [locate, List.map_cons]
      rw [next, ih]

theorem mem_locate_of_mem (line : Int) {p : Piece} {ps : List Piece} (h : p ∈ ps) : ∃ l, (p, l) ∈ locate line ps := by
  induction ps generalizing line with
  | nil => cases h
  | cons q ps ih =>
      rcases List.mem_cons.1 h with rfl | h
      · exact ⟨_, List.mem_cons_self⟩
      · obtain ⟨l, hl⟩ := ih (line + q.newlines) h
        exact ⟨l, List.mem_cons_of_mem _ hl⟩

theorem token?_add (located : Piece × Int) (k : Int) :
    token? (located.1, located.2 + k) = (token? located).map (Token.mapLine (· + k)) := by
  obtain ⟨p, line⟩ := located
  cases p <;> rfl

theorem error?_add (located : Piece × Int) (k : Int) :
    error? (located.1, located.2 + k) = (error? located).map (Located.mapLine (· + k)) := by
  obtain ⟨p, line⟩ := located
  cases p <;> rfl

end Piece

theorem pieces_line {cs : List Char} (h : ∀ p ∈ pieces cs, ¬ p.IsOpen) (ds : List Char) :
    pieces (cs ++ '\n' :: ds) = pieces cs ++ .newline :: pieces ds := by
  fun_induction pieces cs with
  | case1 =>
      rw [List.nil_append, List.nil_append, pieces]
      rfl
  | case2 c rest step ih =>
      have closed : ¬ step.1.IsOpen := h step.1 List.mem_cons_self
      have first : Piece.first c (rest ++ '\n' :: ds) = (step.1, step.2 ++ '\n' :: ds) := Piece.first_line closed
      rw [List.cons_append, pieces]
      rw [first, List.cons_append, ← ih fun p hp => h p (List.mem_cons_of_mem _ hp)]

namespace Scan

def lineCount (a : String) : Nat :=
  a.toList.count '\n' + 1

variable {a b : String}

theorem not_isOpen_of_errors (h : ∀ e ∈ (ofString a).errors, e.cause.isOpen = false) :
    ∀ p ∈ pieces a.toList, ¬ p.IsOpen := by
  intro p hp isOpen
  obtain ⟨line, hl⟩ := Piece.mem_locate_of_mem 1 hp
  have reported : ∀ cause, p.fault? = some cause → cause.isOpen = false := fun cause fault =>
    h ⟨cause, line, .line⟩ (List.mem_filterMap.2 ⟨(p, line), hl, by simp [Piece.error?, fault]⟩)
  cases p with
  | openString => cases reported .openString rfl
  | openComment => cases reported .openComment rfl
  | _ => exact isOpen

/-- The pieces of the second of two texts end further down when the text stands behind the first. -/
theorem locate_line (h : ∀ p ∈ pieces a.toList, ¬ p.IsOpen) :
    Piece.locate 1 (pieces (a ++ "\n" ++ b).toList) =
      Piece.locate 1 (pieces a.toList) ++ (.newline, 1 + (lineCount a : Int)) ::
        (Piece.locate 1 (pieces b.toList)).map fun located => (located.1, located.2 + (lineCount a : Int)) := by
  have text : (a ++ "\n" ++ b).toList = a.toList ++ '\n' :: b.toList := by simp
  have begins : (1 : Int) + (((pieces a.toList).flatMap Piece.text).count '\n' : Nat) + Piece.newline.newlines =
      1 + lineCount a := by
    rw [pieces_text]
    simp [lineCount, Piece.newlines, Piece.text]
    omega
  rw [text, pieces_line h b.toList, Piece.locate_append, Piece.locate]
  rw [begins, Piece.locate_add]

/-- What is found in the second of two texts is found further down when it stands behind the first. -/
theorem ofString_line (h : ∀ e ∈ (ofString a).errors, e.cause.isOpen = false) :
    (ofString (a ++ "\n" ++ b)).errors =
        (ofString a).errors ++ (ofString b).errors.map (Located.mapLine (· + lineCount a)) ∧
      (ofString (a ++ "\n" ++ b)).list.tokens =
        (ofString a).list.tokens ++ (ofString b).list.tokens.map (Token.mapLine (· + lineCount a)) := by
  have located := locate_line (b := b) (not_isOpen_of_errors h)
  unfold ofString ofChars
  dsimp only
  rw [located]
  constructor
  · rw [List.filterMap_append, List.filterMap_cons_none rfl, List.filterMap_map, List.map_filterMap]
    simp only [Function.comp_def, Piece.error?_add]
  · rw [List.filterMap_append, List.filterMap_cons_none rfl, List.filterMap_map, List.map_filterMap]
    simp only [Function.comp_def, Piece.token?_add]

end Scan

end LoxScript
