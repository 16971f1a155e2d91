import LoxScript.Proofs.Grammar.Complete
import LoxScript.Proofs.Grammar.Progress
import LoxScript.Token.Scan

/-!
# What stands before an error

Declarations that are read without an error are read just so whatever comes behind them, be it broken or not, unless it
begins with an `else`. What comes behind them is then read as if it stood alone.
-/

namespace LoxScript

namespace Parser

variable {fuel : Nat} {p : Parser (Stmt Unit)} (d : Parser (Option (Stmt Unit)))

/-- A round does not look at the declarations before it. -/
theorem declarationRound_append (stop : Bool) (before done : Array (Stmt Unit)) :
    declarationRound stop d (before ++ done) =
      Sum.map (before ++ ·) (before.toList ++ ·) <$> declarationRound stop d done := by
  unfold declarationRound
  simp only [map_bind]
  refine bind_congr fun ended => bind_congr fun brace => ?_
  split
  · simp
  · rw [map_bind]
    refine bind_congr fun o => ?_
    cases o <;> simp

theorem repeating_declarationRound (fuel : Nat) (stop : Bool) (before done : Array (Stmt Unit)) :
    repeating (declarationRound stop d) fuel (before ++ done) =
      (before.toList ++ ·) <$> repeating (declarationRound stop d) fuel done := by
  induction fuel generalizing done with
  | zero => rfl
  | succ fuel ih =>
      rw [repeating, repeating, declarationRound_append, bind_map_left, map_bind]
      refine bind_congr fun x => ?_
      cases x with
      | inl done => exact ih done
      | inr ss => simp

/-- The loop reads one declaration after another and comes to what stands behind them. -/
theorem repeating_reads {parts : List (List Token × Stmt Unit)} {stop : Bool} {rest : List Token} {endLine : Int}
    {errors : Array (Located SyntaxError)}
    (h : ∀ x ∈ parts, ∀ rest, NoElse rest → Reads p x.1 rest x.2)
    (hp : ∀ x ∈ parts, x.2.Spelled .declaration x.1) (noElse : NoElse rest) (done : Array (Stmt Unit)) :
    repeating (declarationRound stop (recovering p)) (fuel + parts.length) done
        ⟨(parts.map Prod.fst).flatten ++ rest, endLine, errors⟩ =
      repeating (declarationRound stop (recovering p)) fuel (done ++ (parts.map Prod.snd).toArray)
        ⟨rest, endLine, errors⟩ := by
  induction parts generalizing done with
  | nil => simp
  | cons x parts ih =>
      have follow : NoElse ((parts.map Prod.fst).flatten ++ rest) := by
        cases parts with
        | nil => exact noElse
        | cons y parts =>
            rw [List.map_cons, List.flatten_cons, List.append_assoc]
            exact (hp y (List.mem_cons_of_mem _ List.mem_cons_self)).noElse _
      have round : Reads (declarationRound stop (recovering p) done) x.1 _ _ :=
        declarationRound_reads (h x List.mem_cons_self _ follow) (hp x List.mem_cons_self) done
      have again := ih (fun y hy => h y (List.mem_cons_of_mem _ hy)) (fun y hy => hp y (List.mem_cons_of_mem _ hy))
        (done.push x.2)
      show EStateM.bind (declarationRound stop (recovering p) done) _ _ = _
      unfold EStateM.bind
      rw [round ⟨((x :: parts).map Prod.fst).flatten ++ rest, endLine, errors⟩ (by simp)]
      simpa using again

/-- Declarations that are read without an error come first, and then what is read from the rest alone. -/
theorem program_append {parts : List (List Token × Stmt Unit)} (hp : ∀ x ∈ parts, x.2.Spelled .declaration x.1)
    (b : TokenList) (noElse : NoElse b.tokens) {ss : List (Stmt Unit)} {s : ParseState}
    (read : program b.fuel (b.after 0 #[]) = .ok ss s)
    (hfuel : 4 * ((parts.map Prod.fst).flatten.length + b.tokens.length) + 4 ≤ fuel) :
    program fuel ⟨(parts.map Prod.fst).flatten ++ b.tokens, b.endLine, #[]⟩ = .ok (parts.map Prod.snd ++ ss) s := by
  have count := count_declarations hp
  have reads : ∀ x ∈ parts, ∀ rest, NoElse rest → Reads (declaration fuel) x.1 rest x.2 :=
    declaration_reads_parts hp (by omega)
  obtain ⟨left, rfl⟩ : ∃ left, fuel = left + parts.length := ⟨fuel - parts.length, by omega⟩
  have enough : b.fuel ≤ left := by
    unfold TokenList.fuel
    omega
  have more : b.fuel ≤ left + parts.length := Nat.le_add_right_of_le enough
  have alone : repeating (declarationRound false (recovering (declaration (left + parts.length)))) left #[]
      ⟨b.tokens, b.endLine, #[]⟩ = .ok ss s := by
    show declarations left false _ (b.after 0 #[]) = _
    rw [(Within.declarations enough false (Within.recovering (Within.declaration more))).eq_of_not_ranOut]
    · exact read
    · rintro ⟨s', out⟩
      cases out.symm.trans read
  have behind := repeating_declarationRound (recovering (declaration (left + parts.length))) left false
    (parts.map Prod.snd).toArray #[]
  rw [Array.append_empty] at behind
  rw [program, declarations_eq, repeating_reads reads hp noElse, Array.empty_append, behind, map_eq, alone]

end Parser

/-- Behind a text without errors the statements and the errors of any text are what they are when it stands alone, if it
does not begin with an `else`. -/
theorem Stmt.parse_append {a : List Token} {line : Int} (quiet : (Stmt.parse ⟨a, line⟩).errors = []) (b : TokenList)
    (noElse : ∀ t ∈ b.tokens.head?, t.kind ≠ .keyword .elseWord) :
    (Stmt.parse ⟨a ++ b.tokens, b.endLine⟩).value = (Stmt.parse ⟨a, line⟩).value ++ (Stmt.parse b).value ∧
      (Stmt.parse ⟨a ++ b.tokens, b.endLine⟩).errors = (Stmt.parse b).errors := by
  obtain ⟨parts, hp, rfl, values⟩ := Stmt.spelled_of_parse quiet
  obtain ⟨errors, same, read⟩ := b.endsProgram
  let ts : TokenList := ⟨(parts.map Prod.fst).flatten ++ b.tokens, b.endLine⟩
  have enough : 4 * ((parts.map Prod.fst).flatten.length + b.tokens.length) + 4 ≤ ts.fuel :=
    Nat.le_of_eq (by rw [TokenList.fuel, List.length_append])
  have whole : Parser.program ts.fuel (ts.after 0 #[]) = _ :=
    Parser.program_append hp b noElse (read _ (Nat.le_refl _)) enough
  have parsed : Stmt.parse ts = ⟨parts.map Prod.snd ++ (Stmt.parse b).value, errors.toList⟩ :=
    Parser.run_of_ok whole []
  rw [parsed, values]
  exact ⟨rfl, same⟩

theorem Stmt.parse_append_broken :
    let a := (Scan.ofString "if (x) y;").list.tokens
    let b := (Scan.ofString "z = ; print x;").list
    (Stmt.parse ⟨a, 1⟩).errors = [] ∧ (∀ t ∈ b.tokens.head?, t.kind ≠ .keyword .elseWord) ∧
      (Stmt.parse ⟨a ++ b.tokens, b.endLine⟩).value = (Stmt.parse ⟨a, 1⟩).value ++ (Stmt.parse b).value ∧
        (Stmt.parse ⟨a ++ b.tokens, b.endLine⟩).errors = (Stmt.parse b).errors := by
  have quiet : (Stmt.parse ⟨(Scan.ofString "if (x) y;").list.tokens, 1⟩).errors = [] := by decide +kernel
  have noElse : ∀ t ∈ (Scan.ofString "z = ; print x;").list.tokens.head?, t.kind ≠ .keyword .elseWord := by
    decide +kernel
  exact ⟨quiet, noElse, Stmt.parse_append quiet _ noElse⟩

end LoxScript
