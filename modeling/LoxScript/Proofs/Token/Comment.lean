import LoxScript.Token.Piece

/-!
# Block comments

Openers and closers of comments are paired from left to right, without overlap. A block comment ends where the
number of comments that are open first returns to zero.
-/

namespace LoxScript

namespace Comment

inductive Mark where
  | opener
  | closer
  | other (c : Char)

def Mark.text : Mark → List Char
  | opener => ['/', '*']
  | closer => ['*', '/']
  | other c => [c]

/-- By how much a mark changes the number of open comments. -/
def Mark.step : Mark → Int
  | opener => 1
  | closer => -1
  | other _ => 0

def marks : List Char → List Mark
  | [] => []
  | '/' :: '*' :: rest => .opener :: marks rest
  | '*' :: '/' :: rest => .closer :: marks rest
  | c :: rest => .other c :: marks rest

def depth : List Mark → Int
  | [] => 0
  | m :: ms => m.step + depth ms

@[simp] theorem depth_nil : depth [] = 0 := rfl

@[simp] theorem depth_cons (m : Mark) (ms : List Mark) : depth (m :: ms) = m.step + depth ms := rfl

theorem marks_text (cs : List Char) : (marks cs).flatMap Mark.text = cs := by
  fun_induction marks cs <;> simp_all [Mark.text]

theorem marks_eq_nil {cs : List Char} : marks cs = [] ↔ cs = [] := by
  constructor
  · intro none
    rw [← marks_text cs, none]
    rfl
  · rintro rfl
    rfl

/-- A text that begins a comment and closes it with its last two characters, and not before. -/
structure Closed (text : List Char) : Prop where
  begins : ['/', '*'] <+: text
  closed : depth (marks text) = 0
  first : ∀ ms, ms <+: marks text → ms ≠ [] → ms ≠ marks text → 0 < depth ms

/-- A text that begins a comment and does not close it. -/
structure Open (text : List Char) : Prop where
  begins : ['/', '*'] <+: text
  isOpen : ∀ ms, ms <+: marks text → ms ≠ [] → 0 < depth ms

/-! ## The end of a comment -/

/-- The marks take the number of open comments, which was `d + 1`, to zero, and not before the last one. -/
structure Falls (d : Nat) (ms : List Mark) : Prop where
  low : depth ms = -(d + 1 : Int)
  first : ∀ ms', ms' <+: ms → ms' ≠ ms → -(d + 1 : Int) < depth ms'

namespace Falls

variable {d : Nat} {ms : List Mark}

theorem ne_nil (h : Falls d ms) : ms ≠ [] := by
  rintro rfl
  have low := h.low
  rw [depth_nil] at low
  omega

/-- One more mark at the front. -/
theorem cons (h : Falls d ms) {d' : Nat} {m : Mark} (next : (d : Int) = d' + m.step) : Falls d' (m :: ms) where
  low := by
    rw [depth_cons, h.low]
    omega
  first ms' front shorter := by
    obtain rfl | ⟨rest, rfl, shorter'⟩ := List.prefix_cons_iff.1 front
    · rw [depth_nil]
      omega
    · have := h.first rest shorter' fun same => shorter (by rw [same])
      rw [depth_cons]
      omega

theorem closer : Falls 0 [.closer] where
  low := rfl
  first ms' front shorter := by
    obtain rfl | ⟨rest, rfl, none⟩ := List.prefix_cons_iff.1 front
    · decide
    · rw [List.prefix_nil.1 none] at shorter
      exact absurd rfl shorter

end Falls

/-- Of `d + 1` open comments, one at least stays open after each of the marks. -/
def Stays (d : Nat) (ms : List Mark) : Prop :=
  ∀ ms', ms' <+: ms → -(d + 1 : Int) < depth ms'

theorem Stays.nil (d : Nat) : Stays d [] := by
  intro ms' front
  rw [List.prefix_nil.1 front, depth_nil]
  omega

theorem stays_cons {d d' : Nat} {m : Mark} {ms : List Mark} (next : (d : Int) = d' + m.step) :
    Stays d' (m :: ms) ↔ Stays d ms := by
  constructor
  · intro h ms' front
    have := h (m :: ms') (List.prefix_cons_inj m |>.2 front)
    rw [depth_cons] at this
    omega
  · intro h ms' front
    obtain rfl | ⟨rest, rfl, shorter⟩ := List.prefix_cons_iff.1 front
    · rw [depth_nil]
      omega
    · have := h rest shorter
      rw [depth_cons]
      omega

theorem Falls.not_stays {d : Nat} {ms more : List Mark} (h : Falls d ms) : ¬ Stays d (ms ++ more) := by
  intro stays
  have := stays ms (List.prefix_append ms more)
  rw [h.low] at this
  omega

/-! ## Whole comments -/

theorem closed_iff {body : List Char} : Closed ('/' :: '*' :: body) ↔ Falls 0 (marks body) := by
  constructor
  · intro h
    refine ⟨?_, fun ms front shorter => ?_⟩
    · have closed := h.closed
      rw [marks, depth_cons, Mark.step] at closed
      omega
    · have first := h.first (.opener :: ms) (by rw [marks]; exact (List.prefix_cons_inj _).2 front)
        (List.cons_ne_nil _ _) (by rw [marks]; exact fun same => shorter (List.cons.inj same).2)
      rw [depth_cons, Mark.step] at first
      omega
  · intro h
    refine ⟨⟨body, rfl⟩, ?_, fun ms front some shorter => ?_⟩
    · rw [marks, depth_cons, Mark.step, h.low]
      rfl
    · rw [marks] at front shorter
      obtain rfl | ⟨rest, rfl, inner⟩ := List.prefix_cons_iff.1 front
      · exact absurd rfl some
      · have := h.first rest inner fun same => shorter (by rw [same])
        rw [depth_cons, Mark.step]
        omega

theorem open_iff {body : List Char} : Open ('/' :: '*' :: body) ↔ Stays 0 (marks body) := by
  constructor
  · intro h ms front
    have isOpen := h.isOpen (.opener :: ms) (by rw [marks]; exact (List.prefix_cons_inj _).2 front)
      (List.cons_ne_nil _ _)
    rw [depth_cons, Mark.step] at isOpen
    omega
  · intro h
    refine ⟨⟨body, rfl⟩, fun ms front some => ?_⟩
    rw [marks] at front
    obtain rfl | ⟨rest, rfl, inner⟩ := List.prefix_cons_iff.1 front
    · exact absurd rfl some
    · have := h rest inner
      rw [depth_cons, Mark.step]
      omega

end Comment

open Comment

namespace Piece

/-- Whether a character is no part of a mark of two characters depends on the next one alone. -/
theorem marks_other {c d : Char} {cs : List Char} (opener : ∀ rest, c = '/' → d :: cs = '*' :: rest → False)
    (closer : ∀ rest, c = '*' → d :: cs = '/' :: rest → False) (ds : List Char) :
    marks (c :: d :: ds) = .other c :: marks (d :: ds) := by
  rw [marks]
  · exact fun rest hc same => opener cs hc (by rw [(List.cons.inj same).1])
  · exact fun rest hc same => closer cs hc (by rw [(List.cons.inj same).1])

/-- The end of a comment is where the marks first close it. -/
theorem closeComment_marks {d : Nat} {cs body rest : List Char} (h : closeComment d cs = some (body, rest)) :
    marks cs = marks body ++ marks rest ∧ Falls d (marks body) := by
  fun_induction closeComment d cs generalizing body rest with
  | case1 => simp at h
  | case2 d cs ih =>
      obtain ⟨⟨b, a⟩, hb, he⟩ := Option.map_eq_some_iff.1 h
      cases he
      obtain ⟨same, falls⟩ := ih hb
      rw [marks, marks, same]
      exact ⟨rfl, falls.cons (by simp [Mark.step])⟩
  | case3 cs =>
      cases h
      exact ⟨rfl, .closer⟩
  | case4 d cs ih =>
      obtain ⟨⟨b, a⟩, hb, he⟩ := Option.map_eq_some_iff.1 h
      cases he
      obtain ⟨same, falls⟩ := ih hb
      rw [marks, marks, same]
      exact ⟨rfl, falls.cons (by rw [Mark.step]; omega)⟩
  | case5 d c cs h₁ h₂ h₃ ih =>
      obtain ⟨⟨b, a⟩, hb, he⟩ := Option.map_eq_some_iff.1 h
      cases he
      obtain ⟨same, falls⟩ := ih hb
      cases b with
      | nil => exact absurd rfl falls.ne_nil
      | cons e b =>
          have append := closeComment_append hb
          have opener : ∀ more, c = '/' → e :: (b ++ rest) = '*' :: more → False := by
            rwa [← List.cons_append, append]
          have closer : ∀ more, c = '*' → e :: (b ++ rest) = '/' :: more → False := by
            rw [← List.cons_append, append]
            cases d with
            | zero => exact fun more => h₂ more rfl
            | succ d => exact fun more => h₃ d more rfl
          rw [← append, List.cons_append] at same ⊢
          rw [marks_other opener closer, marks_other opener closer, same]
          exact ⟨rfl, falls.cons (by simp [Mark.step])⟩

/-- A comment that has no end stays open. -/
theorem stays_of_closeComment {d : Nat} {cs : List Char} (h : closeComment d cs = none) : Stays d (marks cs) := by
  fun_induction closeComment d cs with
  | case1 d => exact .nil d
  | case2 d cs ih => exact (stays_cons (by simp [Mark.step])).2 (ih (Option.map_eq_none_iff.1 h))
  | case3 cs => cases h
  | case4 d cs ih => exact (stays_cons (by rw [Mark.step]; omega)).2 (ih (Option.map_eq_none_iff.1 h))
  | case5 d c cs h₁ h₂ h₃ ih =>
      rw [marks]
      · exact (stays_cons (by simp [Mark.step])).2 (ih (Option.map_eq_none_iff.1 h))
      · exact h₁
      · cases d with
        | zero => exact fun more => h₂ more rfl
        | succ d => exact fun more => h₃ d more rfl

theorem closeComment_of_stays {d : Nat} {cs : List Char} (h : Stays d (marks cs)) : closeComment d cs = none := by
  cases hc : closeComment d cs with
  | none => rfl
  | some closed =>
      obtain ⟨same, falls⟩ := closeComment_marks hc
      rw [same] at h
      exact absurd h falls.not_stays

/-- A comment has no other end than the place where its marks first close it. -/
theorem closeComment_of_falls {d : Nat} {body : List Char} (h : Falls d (marks body)) :
    closeComment d body = some (body, []) := by
  cases hc : closeComment d body with
  | none =>
      have stays := stays_of_closeComment hc
      rw [← List.append_nil (marks body)] at stays
      exact absurd stays h.not_stays
  | some closed =>
      obtain ⟨front, rest⟩ := closed
      obtain ⟨same, falls⟩ := closeComment_marks hc
      have whole : marks front = marks body := Classical.byContradiction fun shorter => by
        have := h.first (marks front) (by rw [same]; exact List.prefix_append _ _) shorter
        rw [falls.low] at this
        omega
      rw [whole] at same
      obtain rfl := marks_eq_nil.1 (List.self_eq_append_right.1 same)
      rw [← closeComment_append hc, List.append_nil]

end Piece

end LoxScript
