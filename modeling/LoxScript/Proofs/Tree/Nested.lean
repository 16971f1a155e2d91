/-!
# Nested lists and their texts

A nested list is written with its items between parentheses and single blanks between the items. If its words can be
told from the signs around them, the text determines the list.
-/

namespace LoxScript

inductive Nested where
  | word (text : String)
  | list (items : List Nested)
  deriving Inhabited

namespace Nested

mutual

def text : Nested → List Char
  | word text => text.toList
  | list [] => ['(', ')']
  | list (n :: ns) => '(' :: (n.text ++ textBehind ns)

/-- The text of the items behind the first one, up to the closing parenthesis. -/
def textBehind : List Nested → List Char
  | [] => [')']
  | n :: ns => ' ' :: (n.text ++ textBehind ns)

end

/-! ## Words -/

/-- The characters that stand around words, or begin and end those that may contain any other character. -/
def marks : List Char :=
  [' ', '(', ')', '"']

/-- Words without marks, and words between quotes. -/
inductive IsWord : List Char → Prop where
  | bare {w : List Char} : w ≠ [] → (∀ c ∈ w, c ∉ marks) → IsWord w
  | quoted {contents : List Char} : '"' ∉ contents → IsWord ('"' :: (contents ++ ['"']))

def Stops (rest : List Char) : Prop :=
  ∀ c ∈ rest.head?, c = ' ' ∨ c = ')'

def splitWord : List Char → List Char × List Char
  | [] => ([], [])
  | c :: text =>
      if c = '"' then ('"' :: (text.takeWhile (· != '"') ++ ['"']), (text.dropWhile (· != '"')).tail)
      else ((c :: text).takeWhile (· ∉ marks), (c :: text).dropWhile (· ∉ marks))

variable {w rest rest' : List Char}

theorem Stops.takeWhile (stops : Stops rest) : rest.takeWhile (· ∉ marks) = [] ∧ rest.dropWhile (· ∉ marks) = rest := by
  cases rest with
  | nil => exact ⟨rfl, rfl⟩
  | cons c rest => obtain rfl | rfl := stops c rfl <;> exact ⟨rfl, rfl⟩

theorem IsWord.splitWord (h : IsWord w) (stops : Stops rest) : splitWord (w ++ rest) = (w, rest) := by
  cases h with
  | bare some_left plain =>
      obtain ⟨c, w, rfl⟩ := List.exists_cons_of_ne_nil some_left
      have no_quote : c ≠ '"' := by
        rintro rfl
        exact plain '"' List.mem_cons_self (by decide)
      have plain : ∀ d ∈ c :: w, decide (d ∉ marks) = true := fun d hd => decide_eq_true (plain d hd)
      rw [List.cons_append, Nested.splitWord, if_neg no_quote, ← List.cons_append, List.takeWhile_append_of_pos plain,
        List.dropWhile_append_of_pos plain, stops.takeWhile.1, stops.takeWhile.2, List.append_nil]
  | @quoted contents noQuote =>
      have plain : ∀ d ∈ contents, (d != '"') = true := by
        intro d hd
        rw [bne_iff_ne]
        rintro rfl
        exact noQuote hd
      rw [List.cons_append, List.append_assoc, Nested.splitWord, if_pos rfl, List.takeWhile_append_of_pos plain,
        List.dropWhile_append_of_pos plain]
      simp

theorem IsWord.append_inj {w' : List Char} (h : IsWord w) (h' : IsWord w') (stops : Stops rest) (stops' : Stops rest')
    (same : w ++ rest = w' ++ rest') : w = w' ∧ rest = rest' := by
  have split := h.splitWord stops
  rw [same, h'.splitWord stops'] at split
  exact ⟨(congrArg Prod.fst split).symm, (congrArg Prod.snd split).symm⟩

/-- A word begins neither as a list does nor as its end. -/
theorem IsWord.append_ne {c : Char} (h : IsWord w) (paren : c ∈ ['(', ')']) : w ++ rest ≠ c :: rest' := by
  intro same
  cases h with
  | bare some_left plain =>
      obtain ⟨d, w, rfl⟩ := List.exists_cons_of_ne_nil some_left
      obtain ⟨rfl, -⟩ := List.cons.inj same
      refine plain d List.mem_cons_self ?_
      obtain rfl | rfl : d = '(' ∨ d = ')' := by simpa using paren
      · decide
      · decide
  | quoted =>
      obtain ⟨rfl, -⟩ := List.cons.inj same
      exact absurd paren (by decide)

/-! ## Lists -/

/-- All words of a nested list can be told from the signs around them. -/
inductive Readable : Nested → Prop where
  | word {w : String} : IsWord w.toList → Readable (word w)
  | list {ns : List Nested} : (∀ n ∈ ns, Readable n) → Readable (list ns)

theorem stops_textBehind (ns : List Nested) (rest : List Char) : Stops (textBehind ns ++ rest) := by
  cases ns <;> simp [Stops, textBehind]

/-- No item begins with a closing parenthesis. -/
theorem Readable.append_ne {n : Nested} {rest rest' : List Char} (h : n.Readable) : n.text ++ rest ≠ ')' :: rest' := by
  cases h with
  | word word => exact word.append_ne (by decide)
  | @list ns _ => cases ns <;> simp [text]

mutual

theorem text_append_inj {a b : Nested} {rest rest' : List Char} (ha : a.Readable) (hb : b.Readable) (stops : Stops rest)
    (stops' : Stops rest') (same : a.text ++ rest = b.text ++ rest') : a = b ∧ rest = rest' := by
  cases a with
  | word w =>
      cases ha with
      | word word =>
          cases hb with
          | word word' =>
              obtain ⟨texts, rests⟩ := word.append_inj word' stops stops' same
              exact ⟨congrArg _ (String.toList_inj.1 texts), rests⟩
          | @list ms _ => cases ms <;> exact absurd same (word.append_ne (by decide))
  | list ns =>
      cases ha with
      | list ns_readable =>
          cases hb with
          | word word => cases ns <;> exact absurd same.symm (word.append_ne (by decide))
          | @list ms ms_readable =>
              cases ns with
              | nil =>
                  cases ms with
                  | nil => exact ⟨rfl, by simpa [text] using same⟩
                  | cons m ms =>
                      have inner : ')' :: rest = m.text ++ (textBehind ms ++ rest') := by simpa [text] using same
                      exact absurd inner.symm (ms_readable m List.mem_cons_self).append_ne
              | cons n ns =>
                  cases ms with
                  | nil =>
                      have inner : n.text ++ (textBehind ns ++ rest) = ')' :: rest' := by simpa [text] using same
                      exact absurd inner (ns_readable n List.mem_cons_self).append_ne
                  | cons m ms =>
                      have inner : n.text ++ (textBehind ns ++ rest) = m.text ++ (textBehind ms ++ rest') := by
                        simpa [text] using same
                      obtain ⟨rfl, behind⟩ := text_append_inj (ns_readable n List.mem_cons_self)
                        (ms_readable m List.mem_cons_self) (stops_textBehind ns rest) (stops_textBehind ms rest') inner
                      obtain ⟨rfl, rfl⟩ := textBehind_append_inj
                        (fun a ha => ns_readable a (List.mem_cons_of_mem _ ha))
                        (fun b hb => ms_readable b (List.mem_cons_of_mem _ hb)) behind
                      exact ⟨rfl, rfl⟩

theorem textBehind_append_inj {as bs : List Nested} {rest rest' : List Char} (ha : ∀ a ∈ as, a.Readable)
    (hb : ∀ b ∈ bs, b.Readable) (same : textBehind as ++ rest = textBehind bs ++ rest') : as = bs ∧ rest = rest' := by
  cases as with
  | nil =>
      cases bs with
      | nil => exact ⟨rfl, by simpa [textBehind] using same⟩
      | cons b bs => simp [textBehind] at same
  | cons a as =>
      cases bs with
      | nil => simp [textBehind] at same
      | cons b bs =>
          have inner : a.text ++ (textBehind as ++ rest) = b.text ++ (textBehind bs ++ rest') := by
            simpa [textBehind] using same
          obtain ⟨rfl, behind⟩ := text_append_inj (ha a List.mem_cons_self) (hb b List.mem_cons_self)
            (stops_textBehind as rest) (stops_textBehind bs rest') inner
          obtain ⟨rfl, rfl⟩ := textBehind_append_inj (fun a h => ha a (List.mem_cons_of_mem _ h))
            (fun b h => hb b (List.mem_cons_of_mem _ h)) behind
          exact ⟨rfl, rfl⟩

end

/-- The text of a readable list determines it. -/
theorem Readable.text_inj {a b : Nested} (ha : a.Readable) (hb : b.Readable) (same : a.text = b.text) : a = b := by
  have stops : Stops [] := nofun
  exact (text_append_inj ha hb stops stops (congrArg (· ++ []) same)).1

end Nested

end LoxScript
