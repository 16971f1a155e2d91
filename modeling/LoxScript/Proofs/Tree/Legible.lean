import LoxScript.Proofs.Number.Text
import LoxScript.Proofs.Token.Lexeme
import LoxScript.Proofs.Tree.Atoms
import LoxScript.Proofs.Tree.Lisp

/-!
# Trees with legible words

The names, the strings and the reserved words in the text of a tree can be told from the signs around them, and so can
its numbers if their written forms begin with digits.
-/

namespace LoxScript

/-- Numbers that can be told by their written forms, which begin with digits: neither infinite ones, which are written as
a name is, nor different ones that are written alike. -/
structure Number.Told (numbers : List Float) : Prop where
  digit : ∀ x ∈ numbers, ∃ c ∈ (plainText x).toList.head?, isDigit c = true
  inj : ∀ x ∈ numbers, ∀ y ∈ numbers, plainText x = plainText y → x = y

/-- An atom as the text of a program has it, where all numbers are among the given ones. -/
def Token.Kind.Legible (numbers : List Float) : Token.Kind → Prop
  | .identifier w => IsLexeme (.identifier w) w.toList
  | .string s => '"' ∉ s.toList
  | .number x => x ∈ numbers
  | .symbol _ | .keyword _ => True

theorem Token.IsLexeme.legible {k : Token.Kind} {text : List Char} (h : IsLexeme k text) {numbers : List Float}
    (number : ∀ x, k = .number x → x ∈ numbers) : k.Legible numbers := by
  cases h with
  | symbol | keyword => trivial
  | identifier letter parts noKeyword =>
      rw [Kind.Legible, String.toList_ofList]
      exact .identifier letter parts noKeyword
  | string noQuote => rwa [Kind.Legible, String.toList_ofList]
  | whole | fractional => exact number _ rfl

/-- What a name begins with, and that it is not reserved. -/
theorem Token.IsLexeme.identifier_cons {w : String} (h : IsLexeme (.identifier w) w.toList) :
    ∃ c rest, w.toList = c :: rest ∧ isLetter c = true ∧ (∀ d ∈ rest, isLetter d = true ∨ isDigit d = true) ∧
      Keyword.ofText? w = none := by
  generalize ht : w.toList = text at h
  cases h with
  | @identifier c rest letter parts noKeyword =>
      refine ⟨c, rest, rfl, letter, parts, ?_⟩
      cases found : Keyword.ofText? (.ofList (c :: rest)) with
      | none => rfl
      | some k => exact absurd (by rw [Keyword.text_of_ofText? found, ht]) (noKeyword k)

namespace Nested

/-- A word without marks. -/
def isBare (w : String) : Bool :=
  !w.toList.isEmpty && w.toList.all fun c => !marks.contains c

theorem isWord_of_isBare {w : String} (h : isBare w = true) : IsWord w.toList := by
  obtain ⟨some_left, plain⟩ := Bool.and_eq_true_iff.1 h
  refine .bare (by simpa using some_left) fun c hc mark => ?_
  simpa [mark] using List.all_eq_true.1 plain c hc

theorem not_mem_marks {c : Char} (h : isLetter c = true ∨ isDigit c = true) : c ∉ marks := by
  intro mark
  have none_of_them : marks.all (fun d => !isLetter d && !isDigit d) = true := by decide
  have neither := List.all_eq_true.1 none_of_them c mark
  obtain letter | digit := h
  · simp [letter] at neither
  · simp [digit] at neither

theorem isWord_identifier {w : String} (h : Token.IsLexeme (.identifier w) w.toList) : IsWord w.toList := by
  obtain ⟨c, rest, text, letter, parts, -⟩ := h.identifier_cons
  rw [text]
  exact .bare (List.cons_ne_nil _ _) (List.forall_mem_cons.2
    ⟨not_mem_marks (.inl letter), fun d hd => not_mem_marks (parts d hd)⟩)

theorem isWord_plainText {x : Float} (digit : ∃ c ∈ (Number.plainText x).toList.head?, isDigit c = true) :
    IsWord (Number.plainText x).toList := by
  obtain ⟨c, first, -⟩ := digit
  refine .bare (List.ne_nil_of_mem (List.mem_of_mem_head? first)) fun d hd => ?_
  obtain digit | sign := Number.isNumeric_plainText hd
  · exact not_mem_marks (.inr digit)
  · have apart : ['.', '-', '+', 'e', 'i', 'n', 'f', 'a'].all (fun d => !marks.contains d) = true := by decide
    intro mark
    simpa [mark] using List.all_eq_true.1 apart d sign

variable {numbers : List Float}

theorem isWord_literal (told : Number.Told numbers) {v : Literal} (h : ∀ k ∈ v.atoms, k.Legible numbers) :
    IsWord v.text.toList := by
  cases v with
  | nil => exact isWord_of_isBare (by decide)
  | bool b => cases b <;> exact isWord_of_isBare (by decide)
  | number x => exact isWord_plainText (told.digit x (h _ List.mem_cons_self))
  | string s =>
      have text : ("\"" ++ s ++ "\"").toList = '"' :: (s.toList ++ ['"']) := by simp
      rw [Literal.text, text]
      exact .quoted (h _ List.mem_cons_self)

theorem Readable.headed {head : String} {ns : List Nested} (bare : isBare head = true) (h : ∀ n ∈ ns, n.Readable) :
    (Nested.list (Nested.word head :: ns)).Readable :=
  .list (List.forall_mem_cons.2 ⟨.word (isWord_of_isBare bare), h⟩)

theorem readable_name {x : Name} (h : x.kind.Legible numbers) : (word x.text).Readable :=
  .word (isWord_identifier h)

end Nested

open Nested (Readable readable_name)

variable {ρ : Type} {numbers : List Float}

namespace Expr

mutual

theorem readable (told : Number.Told numbers) {e : Expr ρ} (h : ∀ k ∈ e.atoms, k.Legible numbers) :
    e.toNested.Readable := by
  cases e with
  | literal v => exact .word (Nested.isWord_literal told h)
  | grouping e => exact .headed (by decide) (List.forall_mem_singleton.2 (readable told (e := e) h))
  | unary op _ e =>
      have bare : Nested.isBare op.text = true := by cases op <;> decide
      exact .headed bare (List.forall_mem_singleton.2 (readable told (e := e) h))
  | binary op _ a b | logical op _ a b =>
      obtain ⟨ha, hb⟩ := List.forall_mem_append.1 h
      have bare : Nested.isBare op.text = true := by cases op <;> decide
      exact .headed bare (by simp [readable told ha, readable told hb])
  | var x _ => exact readable_name (h _ List.mem_cons_self)
  | assign x _ e =>
      obtain ⟨hx, he⟩ := List.forall_mem_cons.1 h
      exact .headed (by decide) (by simp [readable_name hx, readable told he])
  | call f _ es =>
      obtain ⟨hf, hes⟩ := List.forall_mem_append.1 h
      exact .headed (by decide) (List.forall_mem_cons.2 ⟨readable told hf, readableAll told hes⟩)
  | get o x =>
      obtain ⟨hx, ho⟩ := List.forall_mem_cons.1 h
      exact .headed (by decide) (by simp [readable_name hx, readable told ho])
  | set o x e =>
      obtain ⟨hx, hoe⟩ := List.forall_mem_cons.1 h
      obtain ⟨ho, he⟩ := List.forall_mem_append.1 hoe
      have target : (Nested.list [.word ".", o.toNested, .word x.text]).Readable :=
        .headed (by decide) (by simp [readable_name hx, readable told ho])
      exact .headed (by decide) (by simp [target, readable told he])
  | this => exact .word (Nested.isWord_of_isBare (by decide))
  | super _ m _ => exact .headed (by decide) (by simp [readable_name (h _ List.mem_cons_self)])

theorem readableAll (told : Number.Told numbers) {es : List (Expr ρ)} (h : ∀ k ∈ atomsAll es, k.Legible numbers) :
    ∀ n ∈ toNestedAll es, n.Readable := by
  cases es with
  | nil => exact nofun
  | cons e es =>
      obtain ⟨he, hes⟩ := List.forall_mem_append.1 h
      exact List.forall_mem_cons.2 ⟨readable told he, readableAll told hes⟩

end

end Expr

mutual

theorem Stmt.readable (told : Number.Told numbers) {s : Stmt ρ} (h : ∀ k ∈ s.atoms, k.Legible numbers) :
    s.toNested.Readable := by
  cases s with
  | expression e | print e => exact .headed (by decide) (List.forall_mem_singleton.2 (Expr.readable told (e := e) h))
  | var x e =>
      obtain ⟨hx, he⟩ := List.forall_mem_cons.1 h
      cases e with
      | none => exact .headed (by decide) (by simp [readable_name hx])
      | some e =>
          rw [Expr.atoms?_some] at he
          have sign : (Nested.word "=").Readable := .word (Nested.isWord_of_isBare (by decide))
          exact .headed (by decide) (by simp [readable_name hx, sign, Expr.readable told he])
  | block ss => exact .headed (by decide) (Stmt.readableAll told h)
  | function d => exact FunctionDecl.readable told (d := d) h
  | classDecl x c ds =>
      obtain ⟨hx, hcds⟩ := List.forall_mem_cons.1 h
      obtain ⟨hc, hds⟩ := List.forall_mem_append.1 hcds
      cases c with
      | none =>
          exact .headed (by decide) (List.forall_mem_cons.2 ⟨readable_name hx, FunctionDecl.readableAll told hds⟩)
      | some p =>
          have sign : (Nested.word "<").Readable := .word (Nested.isWord_of_isBare (by decide))
          have super := readable_name (hc _ List.mem_cons_self)
          refine .headed (by decide) ?_
          simp only [List.forall_mem_cons]
          exact ⟨readable_name hx, sign, super, FunctionDecl.readableAll told hds⟩
  | ite c t s =>
      cases s with
      | none =>
          obtain ⟨hc, ht⟩ := List.forall_mem_append.1 h
          exact .headed (by decide) (by simp [Expr.readable told hc, Stmt.readable told ht])
      | some s =>
          obtain ⟨hc, hts⟩ := List.forall_mem_append.1 h
          obtain ⟨ht, hs⟩ := List.forall_mem_append.1 hts
          exact .headed (by decide) (by simp [Expr.readable told hc, Stmt.readable told ht, Stmt.readable told hs])
  | ret _ e =>
      cases e with
      | none => exact .headed (by decide) nofun
      | some e =>
          rw [Stmt.atoms, Expr.atoms?_some] at h
          exact .headed (by decide) (List.forall_mem_singleton.2 (Expr.readable told h))
  | loop c s =>
      obtain ⟨hc, hs⟩ := List.forall_mem_append.1 h
      exact .headed (by decide) (by simp [Expr.readable told hc, Stmt.readable told hs])

theorem FunctionDecl.readable (told : Number.Told numbers) {d : FunctionDecl ρ} (h : ∀ k ∈ d.atoms, k.Legible numbers) :
    d.toNested.Readable := by
  cases d with
  | mk x ps ss =>
      obtain ⟨hx, hpss⟩ := List.forall_mem_cons.1 h
      obtain ⟨hps, hss⟩ := List.forall_mem_append.1 hpss
      have params : (Nested.list (ps.map fun p => .word p.text)).Readable :=
        .list (List.forall_mem_map.2 fun p hp => readable_name (hps _ (List.mem_map_of_mem hp)))
      refine .headed (by decide) ?_
      simp only [List.forall_mem_cons]
      exact ⟨readable_name hx, params, Stmt.readableAll told hss⟩

theorem Stmt.readableAll (told : Number.Told numbers) {ss : List (Stmt ρ)}
    (h : ∀ k ∈ Stmt.atomsAll ss, k.Legible numbers) : ∀ n ∈ Stmt.toNestedAll ss, n.Readable := by
  cases ss with
  | nil => exact nofun
  | cons s ss =>
      obtain ⟨hs, hss⟩ := List.forall_mem_append.1 h
      exact List.forall_mem_cons.2 ⟨Stmt.readable told hs, Stmt.readableAll told hss⟩

theorem FunctionDecl.readableAll (told : Number.Told numbers) {ds : List (FunctionDecl ρ)}
    (h : ∀ k ∈ FunctionDecl.atomsAll ds, k.Legible numbers) : ∀ n ∈ FunctionDecl.toNestedAll ds, n.Readable := by
  cases ds with
  | nil => exact nofun
  | cons d ds =>
      obtain ⟨hd, hds⟩ := List.forall_mem_append.1 h
      exact List.forall_mem_cons.2 ⟨FunctionDecl.readable told hd, FunctionDecl.readableAll told hds⟩

end

end LoxScript
