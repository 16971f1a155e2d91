import LoxScript.Proofs.Token.Join
import LoxScript.Proofs.Tree.Decode

/-!
# The text of a tree loses nothing

Trees that are read from texts without errors are equal, but for their lines, if they are written alike as nested lists
and their numbers can be told by their written forms.
-/

namespace LoxScript

def Token.Kind.number? : Token.Kind → Option Float
  | .number x => some x
  | .symbol _ | .keyword _ | .identifier _ | .string _ => none

def Expr.numbers {ρ : Type} (e : Expr ρ) : List Float :=
  e.atoms.filterMap Token.Kind.number?

def Stmt.numbers {ρ : Type} (s : Stmt ρ) : List Float :=
  s.atoms.filterMap Token.Kind.number?

theorem Token.Kind.legible_atoms {atoms : List Token.Kind} {numbers : List Float}
    (lexemes : ∀ k ∈ atoms, ∃ text, IsLexeme k text)
    (among : ∀ x ∈ atoms.filterMap Token.Kind.number?, x ∈ numbers) : ∀ k ∈ atoms, k.Legible numbers := by
  intro k hk
  obtain ⟨text, lexeme⟩ := lexemes k hk
  refine lexeme.legible fun x hx => among x (List.mem_filterMap.2 ⟨k, hk, ?_⟩)
  rw [hx, Token.Kind.number?]

/-- Readable lists with one text are decoded alike. -/
theorem Nested.Readable.decoded_eq {α : Type} {decode? : Nested → Option α} {a b : Nested} {x y : α} (ha : a.Readable)
    (hb : b.Readable) (same : a.text = b.text) (hx : decode? a = some x) (hy : decode? b = some y) : x = y := by
  rw [ha.text_inj hb same, hy] at hx
  exact (Option.some.inj hx).symm

theorem Expr.mapLines_eq_of_toLisp {e e' : Expr Unit} (told : Number.Told (e.numbers ++ e'.numbers))
    (lexemes : ∀ k ∈ e.atoms, ∃ text, Token.IsLexeme k text) (lexemes' : ∀ k ∈ e'.atoms, ∃ text, Token.IsLexeme k text)
    (same : e.toLisp = e'.toLisp) : e.mapLines (fun _ => 0) = e'.mapLines fun _ => 0 := by
  have legible := Token.Kind.legible_atoms lexemes fun x hx => List.mem_append_left e'.numbers hx
  have legible' := Token.Kind.legible_atoms lexemes' fun x hx => List.mem_append_right e.numbers hx
  exact (readable told legible).decoded_eq (readable told legible') (by rw [← toList_toLisp, ← toList_toLisp, same])
    (Nested.expr?_toNested told legible) (Nested.expr?_toNested told legible')

theorem Stmt.mapLines_eq_of_toLisp {s s' : Stmt Unit} (told : Number.Told (s.numbers ++ s'.numbers))
    (lexemes : ∀ k ∈ s.atoms, ∃ text, Token.IsLexeme k text) (lexemes' : ∀ k ∈ s'.atoms, ∃ text, Token.IsLexeme k text)
    (same : s.toLisp = s'.toLisp) : s.mapLines (fun _ => 0) = s'.mapLines fun _ => 0 := by
  have legible := Token.Kind.legible_atoms lexemes fun x hx => List.mem_append_left s'.numbers hx
  have legible' := Token.Kind.legible_atoms lexemes' fun x hx => List.mem_append_right s.numbers hx
  exact (readable told legible).decoded_eq (readable told legible') (by rw [← toList_toLisp, ← toList_toLisp, same])
    (Nested.stmt?_toNested told legible) (Nested.stmt?_toNested told legible')

namespace Scan

/-- The atoms of an expression that is read from a text are lexemes of the text. -/
theorem lexeme_of_mem_expr {source : String} {e : Expr Unit}
    (read : Expr.parse? (ofString source).list = ⟨some e, []⟩) : ∀ k ∈ e.atoms, ∃ text, Token.IsLexeme k text :=
  (Expr.spelled_of_parse? read).forall_atoms fun _ ht => ⟨_, isLexeme_of_mem ht⟩

/-- The atoms of the statements that are read from a text are lexemes of the text. -/
theorem lexeme_of_mem_stmt {source : String} {s : Stmt Unit} (quiet : (Stmt.parse (ofString source).list).errors = [])
    (hs : s ∈ (Stmt.parse (ofString source).list).value) : ∀ k ∈ s.atoms, ∃ text, Token.IsLexeme k text := by
  obtain ⟨parts, spelled, tokens, values⟩ := Stmt.spelled_of_parse quiet
  rw [values] at hs
  obtain ⟨p, hp, rfl⟩ := List.mem_map.1 hs
  refine (spelled p hp).forall_atoms fun t ht => ?_
  have mem : t ∈ (ofString source).list.tokens := by
    rw [tokens]
    exact List.mem_flatten_of_mem (List.mem_map_of_mem hp) ht
  exact ⟨_, isLexeme_of_mem mem⟩

/-- Any two statements and any two expressions that are read without errors are equal up to the lines of their tokens
if they are written alike, provided that different numbers among their literals are written differently, each beginning
with a digit. -/
theorem toLisp_lossless :
    (∀ (source source' : String) (s s' : Stmt Unit),
      (Stmt.parse (ofString source).list).errors = [] → s ∈ (Stmt.parse (ofString source).list).value →
      (Stmt.parse (ofString source').list).errors = [] → s' ∈ (Stmt.parse (ofString source').list).value →
      Number.Told (s.numbers ++ s'.numbers) → s.toLisp = s'.toLisp →
        s.mapLines (fun _ => 0) = s'.mapLines fun _ => 0) ∧
    ∀ (source source' : String) (e e' : Expr Unit),
      Expr.parse? (ofString source).list = ⟨some e, []⟩ → Expr.parse? (ofString source').list = ⟨some e', []⟩ →
      Number.Told (e.numbers ++ e'.numbers) → e.toLisp = e'.toLisp →
        e.mapLines (fun _ => 0) = e'.mapLines fun _ => 0 := by
  constructor
  · intro source source' s s' quiet hs quiet' hs' told same
    exact Stmt.mapLines_eq_of_toLisp told (lexeme_of_mem_stmt quiet hs) (lexeme_of_mem_stmt quiet' hs') same
  · intro source source' e e' read read' told same
    exact Expr.mapLines_eq_of_toLisp told (lexeme_of_mem_expr read) (lexeme_of_mem_expr read') same

/-- An assignment of a number and a call with a string, on different lines. -/
theorem toLisp_lossless_line :
    let s (line : Int) : Stmt Unit :=
      .expression (.assign ⟨"x", line⟩ () (.literal (.number (Number.ofNumeral ['1'] []))))
    let e (line : Int) : Expr Unit := .call (.var ⟨"group", line⟩ ()) line [.literal (.string "a (b")]
    (Stmt.parse (ofString "x = 1;").list = ⟨[s 1], []⟩ ∧ Stmt.parse (ofString "\nx = 1;").list = ⟨[s 2], []⟩ ∧
      Number.Told ((s 1).numbers ++ (s 2).numbers) ∧ (s 1).toLisp = (s 2).toLisp ∧
      (s 1).mapLines (fun _ => 0) = (s 2).mapLines fun _ => 0) ∧
    Expr.parse? (ofString "group(\"a (b\")").list = ⟨some (e 1), []⟩ ∧
      Expr.parse? (ofString "\ngroup(\"a (b\")").list = ⟨some (e 2), []⟩ ∧
      Number.Told ((e 1).numbers ++ (e 2).numbers) ∧ (e 1).toLisp = (e 2).toLisp ∧
      (e 1).mapLines (fun _ => 0) = (e 2).mapLines fun _ => 0 := by
  intro s e
  let assignment (line : Int) : TokenList :=
    ⟨[⟨.identifier "x", "x", line⟩, ⟨.symbol .equal, "=", line⟩, ⟨.number (Number.ofNumeral ['1'] []), "1", line⟩,
      ⟨.symbol .semicolon, ";", line⟩], line⟩
  let call (line : Int) : TokenList :=
    ⟨[⟨.identifier "group", "group", line⟩, ⟨.symbol .leftParen, "(", line⟩, ⟨.string "a (b", "\"a (b\"", line⟩,
      ⟨.symbol .rightParen, ")", line⟩], line⟩
  have scanned : (ofString "x = 1;").list = assignment 1 ∧ (ofString "\nx = 1;").list = assignment 2 ∧
      (ofString "group(\"a (b\")").list = call 1 ∧ (ofString "\ngroup(\"a (b\")").list = call 2 := by
    decide +kernel
  have parsed (line : Int) : Stmt.parse (assignment line) = ⟨[s line], []⟩ := rfl
  have parsed' (line : Int) : Expr.parse? (call line) = ⟨some (e line), []⟩ := rfl
  have told : Number.Told ((s 1).numbers ++ (s 2).numbers) := by
    have numbers : (s 1).numbers ++ (s 2).numbers = List.replicate 2 (Number.ofNumeral ['1'] []) := rfl
    have first : '1' ∈ (Number.plainText (Number.ofNumeral ['1'] [])).toList.head? := by decide +kernel
    rw [numbers]
    constructor
    · intro x hx
      rw [List.eq_of_mem_replicate hx]
      exact ⟨'1', first, by decide⟩
    · intro x hx y hy _
      rw [List.eq_of_mem_replicate hx, List.eq_of_mem_replicate hy]
  have told' : Number.Told ((e 1).numbers ++ (e 2).numbers) :=
    ⟨fun _ hx => absurd hx List.not_mem_nil, fun _ hx => absurd hx List.not_mem_nil⟩
  obtain ⟨first, second, first', second'⟩ := scanned
  have readFirst : Stmt.parse (ofString "x = 1;").list = ⟨[s 1], []⟩ := first ▸ parsed 1
  have readSecond : Stmt.parse (ofString "\nx = 1;").list = ⟨[s 2], []⟩ := second ▸ parsed 2
  have readFirst' : Expr.parse? (ofString "group(\"a (b\")").list = ⟨some (e 1), []⟩ := first' ▸ parsed' 1
  have readSecond' : Expr.parse? (ofString "\ngroup(\"a (b\")").list = ⟨some (e 2), []⟩ := second' ▸ parsed' 2
  refine ⟨⟨readFirst, readSecond, told, rfl, ?_⟩, readFirst', readSecond', told', rfl, ?_⟩
  · exact toLisp_lossless.1 "x = 1;" "\nx = 1;" _ _ (by rw [readFirst])
      (by rw [readFirst]; exact List.mem_singleton_self _) (by rw [readSecond])
      (by rw [readSecond]; exact List.mem_singleton_self _) told rfl
  · exact toLisp_lossless.2 _ _ _ _ readFirst' readSecond' told' rfl

end Scan

end LoxScript
