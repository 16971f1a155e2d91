import LoxScript.Number.Notation

/-!
# The characters of written numbers

A number is written with digits, a point, the signs and the letters of an exponent and of the values that are not
finite, whatever its layout.
-/

namespace LoxScript

namespace Number

def IsNumeric (c : Char) : Prop :=
  c.isDigit = true ∨ c ∈ ['.', '-', '+', 'e', 'i', 'n', 'f', 'a']

variable {c : Char}

theorem isNumeric_decimalDigits {n : Nat} (h : c ∈ decimalDigits n) : IsNumeric c :=
  .inl (Nat.isDigit_of_mem_toDigits (by decide) (by decide) h)

theorem isNumeric_replicate {n : Nat} (h : c ∈ List.replicate n '0') : IsNumeric c := by
  rw [List.eq_of_mem_replicate h]
  exact .inl rfl

theorem mem_of_mem_dropTrailingZeros {digits : List Char} (h : c ∈ dropTrailingZeros digits) : c ∈ digits :=
  List.mem_reverse.1 ((List.dropWhile_sublist _).subset (List.mem_reverse.1 h))

theorem isNumeric_exponentText {width : Nat} {e : Int} (h : c ∈ exponentText width e) : IsNumeric c := by
  simp only [exponentText, List.mem_cons, List.mem_append] at h
  obtain rfl | rfl | zeros | digits := h
  · exact .inr (by decide)
  · split <;> exact .inr (by decide)
  · exact isNumeric_replicate zeros
  · exact isNumeric_decimalDigits digits

namespace Layout

variable {l : Layout}

theorem isNumeric_place (tail : ∀ d ∈ l.wholeTail, IsNumeric d) {digits : List Char}
    (plain : ∀ d ∈ digits, IsNumeric d) {e : Int} (h : c ∈ l.place digits e) : IsNumeric c := by
  have point : IsNumeric '.' := .inr (by decide)
  have zero : IsNumeric '0' := .inl rfl
  unfold place at h
  split at h
  · split at h
    · simp only [List.mem_append, List.mem_cons, List.not_mem_nil, or_false] at h
      obtain ((rfl | rfl) | zeros) | mem := h
      · exact zero
      · exact point
      · exact isNumeric_replicate zeros
      · exact plain c mem
    · dsimp only at h
      split at h
      · simp only [List.mem_append] at h
        obtain (mem | zeros) | mem := h
        · exact plain c mem
        · exact isNumeric_replicate zeros
        · exact tail c mem
      · simp only [List.mem_append, List.mem_cons] at h
        obtain mem | rfl | mem := h
        · exact plain c (List.mem_of_mem_take mem)
        · exact point
        · exact plain c (List.mem_of_mem_drop mem)
  · split at h
    · cases h
    · obtain rfl | mem := List.mem_cons.1 h
      · exact plain c List.mem_cons_self
      · exact isNumeric_exponentText mem
    · simp only [List.cons_append, List.mem_cons, List.mem_append] at h
      obtain rfl | rfl | mem | mem := h
      · exact plain c List.mem_cons_self
      · exact point
      · exact plain c (List.mem_cons_of_mem _ mem)
      · exact isNumeric_exponentText mem

/-- A layout whose whole numbers end with such characters writes with no others. -/
theorem isNumeric_render (tail : ∀ d ∈ l.wholeTail, IsNumeric d) {x : Float} (h : c ∈ (l.render x).toList) :
    IsNumeric c := by
  have signed {negative : Bool} {text : List Char} (plain : ∀ d ∈ text, IsNumeric d)
      (h : c ∈ (String.ofList (if negative then '-' :: text else text)).toList) : IsNumeric c := by
    rw [String.toList_ofList] at h
    cases negative with
    | false => exact plain c h
    | true =>
        obtain rfl | mem := List.mem_cons.1 h
        · exact .inr (by decide)
        · exact plain c mem
  have letters {text : List Char} (among : text.all (· ∈ ['.', '-', '+', 'e', 'i', 'n', 'f', 'a']) = true) :
      ∀ d ∈ text, IsNumeric d :=
    fun d hd => .inr (of_decide_eq_true (List.all_eq_true.1 among d hd))
  unfold render at h
  split at h
  · exact letters (by decide) c h
  · exact signed (letters (by decide)) h
  · exact signed (List.forall_mem_cons.2 ⟨.inl rfl, tail⟩) h
  · exact signed (fun d hd => isNumeric_place tail
      (fun d hd => isNumeric_decimalDigits (mem_of_mem_dropTrailingZeros hd)) hd) h

end Layout

theorem isNumeric_plainText {x : Float} (h : c ∈ (plainText x).toList) : IsNumeric c :=
  Layout.isNumeric_render (l := .plain) nofun h

end Number

end LoxScript
