import Mathlib
import LoxScript.Proofs.Token.Split
import LoxScript.Report.Basic

/-!
# Every character and every line is accounted for

The tokens and the lexical errors of a text are those of its pieces, in order, and each is on the line on which its
piece ends.
-/

namespace LoxScript

namespace Piece

/-- Each piece with the line on which it ends: one more than the newlines in the text up to there. -/
def placed (ps : List Piece) : List (Piece × Int) :=
  ps.mapIdx fun i p => (p, 1 + ((ps.take (i + 1)).flatMap text).count '\n')

theorem locate_eq_mapIdx (line : Int) (ps : List Piece) :
    locate line ps = ps.mapIdx fun i p => (p, line + ((ps.take (i + 1)).flatMap text).count '\n') := by
  induction ps generalizing line with
  | nil => rfl
  | cons p ps ih =>
      rw [locate, ih, List.mapIdx_cons]
      simp [newlines, Int.add_assoc]

theorem locate_concat (line : Int) (ps : List Piece) (p : Piece) :
    ∃ end', locate line (ps ++ [p]) = locate line ps ++ [(p, end')] :=
  ⟨_, locate_append line ps [p]⟩

theorem fst_mem_of_mem_locate {line : Int} {ps : List Piece} {located : Piece × Int} (h : located ∈ locate line ps) :
    located.1 ∈ ps := by
  rw [locate_eq_mapIdx, List.mem_mapIdx] at h
  obtain ⟨i, hi, rfl⟩ := h
  exact List.getElem_mem hi

end Piece

/-- An open piece is the last one. -/
theorem Splits.not_isOpen {cs : List Char} {ps : List Piece} (h : Splits cs ps) :
    ∀ p ∈ ps.dropLast, ¬ p.IsOpen := by
  induction h with
  | nil => exact nofun
  | @cons p rest ps stands splits ih =>
      cases ps with
      | nil => exact nofun
      | cons q qs =>
          rw [List.dropLast_cons_cons]
          refine List.forall_mem_cons.2 ⟨?_, ih⟩
          cases stands with
          | openString | openComment =>
              rw [splits_iff, pieces] at splits
              cases splits
          | _ => exact id

/-- The names and lines of the tokens, closed by the mark for the end of input. -/
def TokenList.rows (ts : TokenList) : List (String × Int) :=
  ts.tokens.map (fun t => (t.kind.tag, t.line)) ++ [(endTag, ts.endLine)]

theorem Token.Kind.tag_ne_endTag (kind : Token.Kind) : kind.tag ≠ TokenList.endTag := by
  cases kind with
  | symbol s => cases s <;> decide
  | keyword k => cases k <;> decide
  | identifier => exact (by decide : "IDENTIFIER" ≠ "EOF")
  | string => exact (by decide : "STRING" ≠ "EOF")
  | number => exact (by decide : "NUMBER" ≠ "EOF")

namespace Scan

def reports (scan : Scan) : List Report :=
  scan.errors.map (Report.ofLocated LexicalError.message)

/-- All errors but the last are unexpected characters. -/
theorem errors_dropLast (cs : List Char) :
    ∀ e ∈ (ofChars cs).errors.dropLast, ∃ c line, e = ⟨.unexpectedCharacter c, line, .line⟩ := by
  intro e he
  have closed := (splits_iff.2 rfl : Splits cs (pieces cs)).not_isOpen
  unfold ofChars at he
  dsimp only at he
  obtain none | ⟨ps, p, hps⟩ := List.eq_nil_or_concat (pieces cs)
  · rw [none] at he
    cases he
  · rw [hps, List.concat_eq_append] at closed he
    obtain ⟨line, located⟩ := Piece.locate_concat 1 ps p
    rw [List.dropLast_concat] at closed
    have earlier : e ∈ (Piece.locate 1 ps).filterMap Piece.error? := by
      rw [located, List.filterMap_append] at he
      cases hp : Piece.error? (p, line) with
      | none =>
          rw [List.filterMap_cons_none hp, List.filterMap_nil, List.append_nil] at he
          exact List.dropLast_subset _ he
      | some e' => rwa [List.filterMap_cons_some hp, List.filterMap_nil, List.dropLast_concat] at he
    obtain ⟨⟨q, line⟩, mem, found⟩ := List.mem_filterMap.1 earlier
    have notOpen := closed q (Piece.fst_mem_of_mem_locate mem)
    cases q with
    | unexpected c =>
        cases found
        exact ⟨c, _, rfl⟩
    | openString | openComment => exact absurd trivial notOpen
    | _ => cases found

/-- A text is the sequence of its pieces, and there is one way only to split it. The tokens are the lexemes among
the pieces, in order; there is one report for each character that nothing begins with and for each piece that the
end of the text leaves open, in order, so that at most the last report is of the latter sort. Tokens and reports
are on the line on which their pieces end. The list ends with the mark for the end of input, and has no other. -/
theorem ofString_accounted (source : String) :
    ∃ ps : List Piece, (∀ ps', Splits source.toList ps' ↔ ps' = ps) ∧ ps.flatMap Piece.text = source.toList ∧
      (ofString source).list.tokens = (Piece.placed ps).filterMap (fun
        | (.lexeme kind text, line) => some ⟨kind, .ofList text, line⟩
        | _ => none) ∧
      (ofString source).reports = (Piece.placed ps).filterMap (fun
        | (.unexpected c, line) => some (.static line .line ("Unexpected character: " ++ c.toString))
        | (.openString _, line) => some (.static line .line "Unterminated string.")
        | (.openComment _, line) => some (.static line .line "Unterminated block comment.")
        | _ => none) ∧
      (∀ r ∈ (ofString source).reports.dropLast,
        ∃ (line : Int) (c : Char), r = .static line .line ("Unexpected character: " ++ c.toString)) ∧
      ∃ front : List (String × Int),
        (ofString source).list.rows = front ++ [(TokenList.endTag, (1 + source.toList.count '\n' : Int))] ∧
        ∀ row ∈ front, row.1 ≠ TokenList.endTag := by
  refine ⟨pieces source.toList, fun ps' => splits_iff, pieces_text _, ?_, ?_, ?_, ?_⟩
  · unfold ofString ofChars
    dsimp only
    rw [Piece.locate_eq_mapIdx]
    refine congrArg (List.filterMap · _) (funext fun ⟨p, line⟩ => ?_)
    cases p <;> rfl
  · unfold ofString ofChars reports
    dsimp only
    rw [Piece.locate_eq_mapIdx, List.map_filterMap]
    refine congrArg (List.filterMap · _) (funext fun ⟨p, line⟩ => ?_)
    cases p <;> rfl
  · intro r hr
    unfold reports at hr
    rw [← List.map_dropLast] at hr
    obtain ⟨e, he, rfl⟩ := List.mem_map.1 hr
    obtain ⟨c, line, rfl⟩ := errors_dropLast _ e he
    exact ⟨line, c, rfl⟩
  · refine ⟨_, rfl, ?_⟩
    intro row hrow
    obtain ⟨t, _, rfl⟩ := List.mem_map.1 hrow
    exact t.kind.tag_ne_endTag

end Scan

end LoxScript
