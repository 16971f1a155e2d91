import LoxScript.Proofs.Colour.Source

/-!
# Deleting the marks of styles

In a report that is shown in colour the pieces that stand out have marks around them. When these marks are deleted,
what is left of a clean report is its plain text.
-/

namespace LoxScript

def Style.marks : List String :=
  [bold.mark, red.mark, reset.mark]

def eraseMarks : List Char → List Char
  | '\x1b' :: '[' :: '1' :: 'm' :: cs => eraseMarks cs
  | '\x1b' :: '[' :: '3' :: '1' :: 'm' :: cs => eraseMarks cs
  | '\x1b' :: '[' :: '0' :: 'm' :: cs => eraseMarks cs
  | c :: cs => c :: eraseMarks cs
  | [] => []

theorem eraseMarks_cons {c : Char} (h : c ≠ escapeChar) (cs : List Char) :
    eraseMarks (c :: cs) = c :: eraseMarks cs := by
  rw [eraseMarks] <;> exact fun _ same => absurd same h

theorem eraseMarks_mark {mark : String} (h : mark ∈ Style.marks) (cs : List Char) :
    eraseMarks (mark.toList ++ cs) = eraseMarks cs := by
  unfold Style.marks at h
  simp only [List.mem_cons, List.not_mem_nil, or_false] at h
  rcases h with rfl | rfl | rfl <;> rfl

/-- The text `t` is `p` with marks in it: wherever it stands, `p` is what deleting the marks leaves of it. -/
def Styled (t p : String) : Prop :=
  ∀ rest, eraseMarks (t.toList ++ rest) = p.toList ++ eraseMarks rest

namespace Styled

variable {t t' p p' : String}

theorem append (h : Styled t p) (h' : Styled t' p') : Styled (t ++ t') (p ++ p') := by
  intro rest
  rw [String.toList_append, String.toList_append, List.append_assoc, h, h', List.append_assoc]

theorem empty : Styled "" "" :=
  fun _ => rfl

theorem mark (h : t ∈ Style.marks) : Styled t "" :=
  eraseMarks_mark h

theorem join {marks : List String} (h : ∀ m ∈ marks, m ∈ Style.marks) : Styled (String.join marks) "" := by
  induction marks with
  | nil => exact empty
  | cons m marks ih =>
      rw [List.forall_mem_cons] at h
      rw [String.join_cons]
      exact (mark h.1).append (ih h.2)

/-- There is nothing to delete from a clean text. -/
theorem clean (h : Clean t) : Styled t t := by
  intro rest
  unfold Clean at h
  generalize t.toList = cs at h ⊢
  induction cs with
  | nil => rfl
  | cons c cs ih =>
      rw [List.mem_cons, not_or] at h
      rw [List.cons_append, eraseMarks_cons (Ne.symm h.1), ih h.2, List.cons_append]

theorem erase (h : Styled t p) : String.ofList (eraseMarks t.toList) = p := by
  have whole := h []
  rw [List.append_nil, eraseMarks, List.append_nil] at whole
  rw [whole, String.ofList_toList]

end Styled

namespace Style

/-- A way to write styled texts that puts nothing but marks around them. -/
def Surrounds (paint : Style → String → String) : Prop :=
  ∀ style text, ∃ before after, (∀ m ∈ before ++ after, m ∈ marks) ∧
    paint style text = String.join before ++ text ++ String.join after

theorem surrounds_decorate : Surrounds decorate := by
  intro style text
  cases style with
  | bold => exact ⟨[bold.mark], [reset.mark], by decide, rfl⟩
  | alarm => exact ⟨[bold.mark, red.mark], [reset.mark], by decide, rfl⟩

theorem Surrounds.styled {paint : Style → String → String} (h : Surrounds paint) (style : Style) {text : String}
    (clean : Clean text) : Styled (paint style text) text := by
  obtain ⟨before, after, marks, written⟩ := h style text
  rw [List.forall_mem_append] at marks
  have styled := ((Styled.join marks.1).append (.clean clean)).append (Styled.join marks.2)
  rw [written]
  rwa [String.empty_append, String.append_empty] at styled

end Style

namespace Report

/-- Composed piece by piece without colour, a report is its plain text. -/
theorem shown_plain (r : Report) : r.shown Style.plain = r.text := by
  cases r with
  | static line place message =>
      have bold : "] Error" = "]" ++ (" " ++ "Error") := by decide
      have alarm : ": " = ":" ++ " " := by decide
      simp only [shown, text, staticText, lineText, Style.plain, bold, alarm, String.append_assoc]
  | runtime error =>
      have alarm : "\n[line " = "\n" ++ "[line " := by decide
      simp only [shown, text, lineText, Style.plain, alarm, String.append_assoc]
  | general message internal => rfl

/-- Composed piece by piece in colour, a clean report is its plain text with marks in it. -/
theorem styled_shown {paint : Style → String → String} (h : Style.Surrounds paint) {r : Report} (clean : r.Clean) :
    Styled (r.shown paint) r.text := by
  rw [← shown_plain]
  unfold Report.Clean at clean
  rw [← shown_plain] at clean
  cases r with
  | static line place message =>
      have parts := Clean.append_iff.1 clean
      have styled := Clean.append_iff.1 parts.1
      exact ((h.styled .bold styled.1).append (h.styled .alarm styled.2)).append (.clean parts.2)
  | runtime error =>
      have parts := Clean.append_iff.1 clean
      exact (h.styled .alarm parts.1).append (.clean parts.2)
  | general message internal =>
      have parts := Clean.append_iff.1 clean
      have styled := Clean.append_iff.1 parts.1
      refine Styled.append (.append ?_ (h.styled .alarm styled.2)) (.clean parts.2)
      cases internal with
      | false => exact .empty
      | true => exact h.styled .alarm styled.1

end Report

end LoxScript
