import LoxScript.Proofs.Grammar.Balance
import LoxScript.Proofs.Session.Interactive
import LoxScript.Proofs.Token.Account
import LoxScript.Session.Shell

/-!
# Units of interactive input

The shell puts the lines of source text that it is fed together to units. No line is lost, taken twice or moved:
the units that have run and the lines that are pending are, in order, the source lines.
-/

namespace LoxScript

/-! ## Between lines the machine is in top-level code -/

namespace Session

theorem Reached.atTopLevel {programs : List (List (Stmt Unit))} {s : Session} (h : Reached programs s) :
    s.atTopLevel = true := by
  obtain ⟨t, left, _, store⟩ := h.sound fun _ => id
  unfold Session.atTopLevel
  rw [store.left, left]
  rfl

theorem Reached.run {programs : List (List (Stmt Unit))} {s : Session} (h : Reached programs s) (source : String) :
    ∃ programs, Reached programs (s.run source).1 := by
  by_cases accepted : ∃ program, Accepted source program
  · obtain ⟨program, accepted⟩ := accepted
    exact ⟨_, h.accepted accepted⟩
  · exact ⟨_, h.rejected (not_exists.1 accepted)⟩

/-- Beyond what it runs, a line only writes to the console. -/
theorem Reached.line {programs : List (List (Stmt Unit))} {s : Session} (h : Reached programs s) (source : String) :
    ∃ programs, Reached programs (s.line source).1 := by
  obtain ⟨programs, h⟩ := h.run source
  refine ⟨programs, ?_⟩
  unfold Session.line runLine
  revert h
  obtain ⟨s', v | e⟩ := s.run source
  · exact fun h => h.console _
  · exact fun h => h.console _

theorem Reached.afterLines {programs : List (List (Stmt Unit))} {s : Session} (h : Reached programs s)
    (sources : List String) : ∃ programs, Reached programs (s.afterLines sources) := by
  unfold Session.afterLines
  induction sources generalizing programs s with
  | nil => exact ⟨programs, h⟩
  | cons source sources ih =>
      obtain ⟨_, h⟩ := h.line source
      exact ih h

end Session

/-! ## Texts that need more, by their reports -/

/-- How the text of a report ends that says of a source text that it is unfinished. -/
def unfinishedEndings : List String := ["Unterminated string.", "Unterminated block comment."]

/-- Whether a report is recognised by the end of its text as one of an unfinished source text. -/
def Report.isUnfinished (r : Report) : Bool :=
  unfinishedEndings.any fun ending => ending.toList.isSuffixOf r.text.toList

/-- The message ends the report. -/
theorem Report.toList_text_ofLocated (e : Located LexicalError) :
    ∃ front, (Report.ofLocated LexicalError.message e).text.toList = front ++ e.cause.message.toList := by
  refine ⟨("[line " ++ toString e.line ++ "] Error" ++ e.place.text ++ ": ").toList, ?_⟩
  rw [← String.toList_append]
  rfl

/-- A report of an unexpected character ends in a blank and that character, whatever it is, and no ending does. -/
theorem not_suffix_unexpected (c : Char) (front : List Char) :
    ∀ ending ∈ unfinishedEndings,
      ¬ ending.toList <:+ front ++ (LexicalError.unexpectedCharacter c).message.toList := by
  intro ending mem suffix
  have text : (LexicalError.unexpectedCharacter c).message.toList = "Unexpected character: ".toList ++ [c] := by
    have one : c.toString.toList = [c] := String.toList_singleton c
    have message : (LexicalError.unexpectedCharacter c).message = "Unexpected character: " ++ c.toString := rfl
    rw [message, String.toList_append, one]
  rw [text, ← List.reverse_prefix] at suffix
  simp only [unfinishedEndings, List.mem_cons, List.not_mem_nil, or_false] at mem
  obtain rfl | rfl := mem
  · simp at suffix
  · simp at suffix

/-- The text of its report tells whether more text could still mend a lexical error. -/
theorem LexicalError.isUnfinished_report (e : Located LexicalError) :
    (Report.ofLocated message e).isUnfinished = e.cause.isOpen := by
  obtain ⟨front, text⟩ := Report.toList_text_ofLocated e
  rw [Bool.eq_iff_iff, Report.isUnfinished, List.any_eq_true]
  simp only [List.isSuffixOf_iff_suffix, text]
  cases e.cause with
  | unexpectedCharacter c => simpa [isOpen] using not_suffix_unexpected c front
  | openString =>
      have ends := List.suffix_append front openString.message.toList
      exact iff_of_true ⟨_, List.mem_cons_self, ends⟩ rfl
  | openComment =>
      have ends := List.suffix_append front openComment.message.toList
      exact iff_of_true ⟨_, List.mem_cons_of_mem _ List.mem_cons_self, ends⟩ rfl

/-- A text needs more if one of the reports of its scan ends in a way that says so, or a bracket is open. -/
theorem needsMore_eq_reports (text : String) : needsMore text =
    ((Scan.ofString text).reports.any Report.isUnfinished || (Scan.ofString text).list.hasOpenBracket) := by
  rw [needsMore, Scan.reports, List.any_map]
  congr 2
  funext e
  exact (LexicalError.isUnfinished_report e).symm

/-! ## Lines joined to a text -/

def joined (lines : List String) : String :=
  "\n".intercalate lines

theorem needsMore_empty : needsMore "" = false := by
  cbv

/-- Lines after each of which their text needs more. -/
def Unfinished (lines : List String) : Prop :=
  ∀ k, 0 < k → k ≤ lines.length → needsMore (joined (lines.take k)) = true

/-- Lines after the last of which, and not before, their text needs no more. -/
structure Completed (lines : List String) : Prop where
  ne_nil : lines ≠ []
  complete : needsMore (joined lines) = false
  unfinished : ∀ k, 0 < k → k < lines.length → needsMore (joined (lines.take k)) = true

namespace Unfinished

theorem nil : Unfinished [] :=
  fun _ pos short => absurd pos (Nat.not_lt.2 short)

theorem take_append (lines : List String) (line : String) {k : Nat} (short : k < (lines ++ [line]).length) :
    (lines ++ [line]).take k = lines.take k ∧ k ≤ lines.length := by
  rw [List.length_append, List.length_singleton] at short
  exact ⟨List.take_append_of_le_length (Nat.le_of_lt_succ short), Nat.le_of_lt_succ short⟩

variable {lines : List String} (h : Unfinished lines)

include h

theorem needsMore (some : lines ≠ []) : needsMore (joined lines) = true := by
  have whole := h lines.length (List.length_pos_iff.2 some) (Nat.le_refl _)
  rwa [List.take_length] at whole

/-- No unfinished lines make up the empty text, which needs no more. -/
theorem joined_eq_empty : joined lines = "" ↔ lines = [] := by
  constructor
  · intro empty
    by_contra some
    have more := h.needsMore some
    rw [empty, needsMore_empty] at more
    cases more
  · rintro rfl
    rfl

theorem joinLine_eq (line : String) : joinLine (joined lines) line = joined (lines ++ [line]) := by
  unfold joinLine
  split
  · next empty =>
      rw [h.joined_eq_empty.1 (String.isEmpty_iff.1 empty)]
      exact (String.intercalate_singleton ..).symm
  · next full =>
      have some : lines ≠ [] := by
        rintro rfl
        exact full rfl
      unfold joined
      rw [String.intercalate_append_of_ne_nil some (List.cons_ne_nil _ _), String.intercalate_singleton]

theorem snoc {line : String} (more : LoxScript.needsMore (joined (lines ++ [line])) = true) :
    Unfinished (lines ++ [line]) := by
  intro k pos short
  obtain short | rfl := Nat.lt_or_eq_of_le short
  · obtain ⟨same, short⟩ := take_append lines line short
    rw [same]
    exact h k pos short
  · rwa [List.take_length]

theorem completed {line : String} (complete : LoxScript.needsMore (joined (lines ++ [line])) = false) :
    Completed (lines ++ [line]) where
  ne_nil := List.append_ne_nil_of_right_ne_nil _ (List.cons_ne_nil _ _)
  complete := complete
  unfinished k pos short := by
    obtain ⟨same, short⟩ := take_append lines line short
    rw [same]
    exact h k pos short

end Unfinished

namespace Shell

/-! ## Source lines and units -/

/-- The command words that are source text while an unfinished line is pending. -/
def commands : List String :=
  ["exit", "help"]

/-- Whether a line is source text, which depends on whether lines are pending. -/
def isSource (s : Shell) (line : String) : Bool :=
  let word := Text.strip line
  word != endOfInput && (s.isPending || !(word.isEmpty || commands.contains word))

def unit? (s : Shell) (line : String) : Option String :=
  let text := joinLine s.pending line
  if s.isSource line && !needsMore text then some text else none

def after (s : Shell) (lines : List String) : Shell :=
  lines.foldl (fun s line => (s.feed line).1) s

def sourceLines (s : Shell) : List String → List String
  | [] => []
  | line :: lines => (if s.isSource line then [line] else []) ++ (s.feed line).1.sourceLines lines

def units (s : Shell) : List String → List String
  | [] => []
  | line :: lines => (s.unit? line).toList ++ (s.feed line).1.units lines

theorem isSource_iff {s : Shell} {line : String} : s.isSource line = true ↔ s.request line = .source := by
  unfold isSource request
  simp only [commands, Bool.and_eq_true, bne_iff_ne, Bool.or_eq_true, Bool.not_eq_true', Bool.or_eq_false_iff]
  grind

/-- A line runs the unit that it completes. If it completes none, one text is printed at most. -/
theorem feed_session (s : Shell) (line : String) :
    (∃ unit, s.unit? line = some unit ∧ (s.feed line).1.session = (s.session.line unit).1) ∨
      s.unit? line = none ∧
        ((s.feed line).1.session = s.session ∨ ∃ text, (s.feed line).1.session = (s.print text).session) := by
  unfold unit? feed
  cases source : s.isSource line with
  | true =>
      rw [isSource_iff.1 source]
      unfold Shell.source
      by_cases more : needsMore (joinLine s.pending line) = true
      · exact .inr (by simp [more])
      · exact .inl (by simp [more, Session.line])
  | false =>
      have other : s.request line ≠ .source := fun h => by simp [isSource_iff.2 h] at source
      refine .inr ⟨by simp, ?_⟩
      cases hr : s.request line with
      | source => exact absurd hr other
      | leave => exact .inr ⟨"", rfl⟩
      | help => exact .inr ⟨helpText, rfl⟩
      | exit | nothing => exact .inl rfl

/-- The session after a line, up to what is on the console: a unit has run, or nothing has. -/
theorem feed_cleared (s : Shell) (line : String) : (s.feed line).1.session.cleared =
    (s.session.afterLines (s.unit? line).toList).cleared := by
  obtain ⟨unit, completes, ran⟩ | ⟨none, same | ⟨text, printed⟩⟩ := s.feed_session line
  · rw [completes, ran]
    rfl
  · rw [none, same]
    rfl
  · rw [none, printed]
    rfl

/-- Other lines than source lines leave what is pending as it is. -/
theorem feed_pending_of_not_isSource {s : Shell} {line : String} (other : s.isSource line = false) :
    (s.feed line).1.pending = s.pending := by
  have other : s.request line ≠ .source := fun h => by simp [isSource_iff.2 h] at other
  unfold feed
  cases hr : s.request line with
  | source => exact absurd hr other
  | leave | exit | help | nothing => rfl

/-! ## The lines are accounted for -/

/-- The pending text of a shell consists of the given lines, each of which has left it unfinished. -/
structure Keeps (s : Shell) (kept : List String) : Prop where
  pending : s.pending = joined kept
  unfinished : Unfinished kept

theorem Keeps.isPending {s : Shell} {kept : List String} (h : s.Keeps kept) :
    s.isPending = true ↔ kept ≠ [] := by
  unfold Shell.isPending
  rw [h.pending, ne_eq, ← h.unfinished.joined_eq_empty]
  simp

/-- A line is kept, or it completes a unit together with the lines that are kept, or it is no source line. -/
theorem Keeps.feed {s : Shell} {kept : List String} (h : s.Keeps kept) (line : String) :
    ∃ (units : List (List String)) (kept' : List String),
      kept ++ (if s.isSource line then [line] else []) = units.flatten ++ kept' ∧
      (s.unit? line).toList = units.map joined ∧ (∀ unit ∈ units, Completed unit) ∧
      (s.feed line).1.Keeps kept' := by
  cases source : s.isSource line with
  | false =>
      refine ⟨[], kept, by simp, by simp [unit?, source], nofun, ?_, h.unfinished⟩
      rw [feed_pending_of_not_isSource source, h.pending]
  | true =>
      have text : joinLine s.pending line = joined (kept ++ [line]) := by
        rw [h.pending, h.unfinished.joinLine_eq]
      unfold Shell.feed unit?
      rw [isSource_iff.1 source, text, source]
      cases more : needsMore (joined (kept ++ [line])) with
      | true =>
          refine ⟨[], kept ++ [line], by simp, by simp [more], nofun, ?_, h.unfinished.snoc more⟩
          simp [Shell.source, text, more]
      | false =>
          refine ⟨[kept ++ [line]], [], by simp, by simp [more], ?_, ?_, .nil⟩
          · rintro unit hunit
            rw [List.mem_singleton.1 hunit]
            exact h.unfinished.completed more
          · simp only [Shell.source, text, more]
            rfl

theorem Keeps.after {s : Shell} {kept : List String} (h : s.Keeps kept) (lines : List String) :
    ∃ (units : List (List String)) (kept' : List String), kept ++ s.sourceLines lines = units.flatten ++ kept' ∧
      s.units lines = units.map joined ∧ (∀ unit ∈ units, Completed unit) ∧ (s.after lines).Keeps kept' := by
  induction lines generalizing s kept with
  | nil => exact ⟨[], kept, by simp [sourceLines], rfl, nofun, h⟩
  | cons line lines ih =>
      obtain ⟨units, kept, taken, ran, completed, h⟩ := h.feed line
      obtain ⟨units', kept', taken', ran', completed', h'⟩ := ih h
      refine ⟨units ++ units', kept', ?_, ?_, ?_, h'⟩
      · rw [sourceLines, ← List.append_assoc, taken, List.append_assoc, taken', List.flatten_append,
          List.append_assoc]
      · rw [Shell.units, ran, ran', List.map_append]
      · intro unit hunit
        exact (List.mem_append.1 hunit).elim (completed unit) (completed' unit)

theorem after_cleared (s : Shell) (lines : List String) :
    (s.after lines).session.cleared = (s.session.afterLines (s.units lines)).cleared := by
  induction lines generalizing s with
  | nil => rfl
  | cons line lines ih =>
      have fed := s.feed_cleared line
      rw [Shell.units, Session.afterLines_append, ← Session.afterLines_cleared, ← fed, Session.afterLines_cleared]
      exact ih _

/-- After any sequence of lines, the units that have run and the lines that are pending are, in order, the source
lines. Each unit is complete with its last line and not before; what is pending needs more. A line does to the
session what the unit does that it completes, and a line that completes none prints one text at most. What the
session has come to is what running the units one after another leads to, and it is ready for more: no error is held
against the next unit, and the machine is in top-level code. -/
theorem lines_accounted (showTree : Bool) (limits : Limits) (clock : Nat → Float) (lines : List String) :
    let fresh := Session.start showTree limits clock
    let s := (Shell.start fresh).after lines
    ∃ (units : List (List String)) (kept : List String),
      (Shell.start fresh).sourceLines lines = units.flatten ++ kept ∧
      (∀ unit ∈ units, Completed unit) ∧
      (Shell.start fresh).units lines = units.map joined ∧
      (∀ before line, before ++ [line] <+: lines →
        let t := (Shell.start fresh).after before
        (∃ unit, t.unit? line = some unit ∧ (t.feed line).1.session = (t.session.line unit).1) ∨
          t.unit? line = none ∧
            ((t.feed line).1.session = t.session ∨ ∃ text, (t.feed line).1.session = (t.print text).session)) ∧
      s.session.cleared = (fresh.afterLines (units.map joined)).cleared ∧
      (kept = [] ∧ s.pending = "" ∧ s.prompt = "> " ∨
        kept ≠ [] ∧ s.pending = joined kept ∧ needsMore s.pending = true ∧ s.prompt = ". ") ∧
      s.session.console.hadError = false ∧ s.session.atTopLevel = true := by
  intro fresh s
  have empty : (Shell.start fresh).Keeps [] := ⟨rfl, .nil⟩
  obtain ⟨units, kept, taken, ran, completed, keeps⟩ := empty.after lines
  have same : s.session.cleared = (fresh.afterLines (units.map joined)).cleared := by
    rw [← ran]
    exact after_cleared _ lines
  have quiet : s.session.console.hadError = false :=
    (congrArg (fun s : Session => s.console.hadError) same).trans (Session.afterLines_hadError rfl _)
  have top : s.session.atTopLevel = true := by
    obtain ⟨_, reached⟩ := (Session.Reached.start showTree limits clock).afterLines (units.map joined)
    exact (congrArg Session.atTopLevel same).trans reached.atTopLevel
  refine ⟨units, kept, taken, completed, ran, fun before line _ => feed_session _ line, same, ?_, quiet, top⟩
  unfold Shell.prompt
  by_cases idle : kept = []
  · refine .inl ⟨idle, ?_, if_neg (mt keeps.isPending.1 (not_not.2 idle))⟩
    rw [keeps.pending, idle]
    rfl
  · refine .inr ⟨idle, keeps.pending, ?_, if_pos (keeps.isPending.2 idle)⟩
    rw [keeps.pending]
    exact keeps.unfinished.needsMore idle

end Shell

/-! ## Complete texts are not held back -/

theorem readingReports_eq_nil {source : String} : Session.readingReports source = [] ↔
    (Scan.ofString source).errors = [] ∧ (Stmt.parse (Scan.ofString source).list).errors = [] := by
  unfold Session.readingReports
  rw [List.append_eq_nil_iff, List.map_eq_nil_iff, List.map_eq_nil_iff]

/-- What a text that cannot be read does to a session, whatever its flags are, is to report the errors. -/
theorem Session.run_of_unreadable {source : String} (unreadable : readingReports source ≠ []) (s : Session) :
    s.run source = (s.report (readingReports source), .done .nil) := by
  rw [ne_eq, readingReports_eq_nil, not_and_or] at unreadable
  unfold run parse
  dsimp only
  rw [hadError_report, hadError_report, readingReports, report_append, if_pos]
  simpa [List.isEmpty_iff, or_assoc] using .inr unreadable

/-- A text that can be read without errors is not held back. -/
theorem needsMore_eq_false {source : String} (readable : Session.readingReports source = []) :
    needsMore source = false := by
  obtain ⟨scans, parses⟩ := readingReports_eq_nil.1 readable
  unfold needsMore TokenList.hasOpenBracket
  simp [scans, TokenList.countP_isOpener parses]

/-- In a text that can be read without errors as many brackets are closed as are opened, of each kind and in all, so
the shell takes it as it stands and runs it. The shell waits for more lines only if the text so far, run as it
stands, would be rejected with an error that is found before it runs. -/
theorem Shell.waits_for_unreadable (source : String) :
    ((Scan.ofString source).errors = [] → (Stmt.parse (Scan.ofString source).list).errors = [] →
      let tokens := (Scan.ofString source).list.tokens
      (∀ b : Bracket, tokens.countP (·.isSymbol b.opener) = tokens.countP (·.isSymbol b.closer)) ∧
      tokens.countP TokenList.isOpener = tokens.countP TokenList.isCloser ∧
      (joinLine "" source, needsMore (joinLine "" source)) = (source, false)) ∧
    (needsMore source = true → ∃ rs : List Report, rs ≠ [] ∧ (∀ r ∈ rs, r.isStatic = true) ∧
      ∀ s : Session, s.run source = (s.report rs, .done .nil)) := by
  constructor
  · intro scans parses
    have complete := needsMore_eq_false (readingReports_eq_nil.2 ⟨scans, parses⟩)
    exact ⟨TokenList.countP_opener parses, TokenList.countP_isOpener parses, Prod.ext rfl complete⟩
  · intro waits
    have unreadable : Session.readingReports source ≠ [] := by
      intro readable
      rw [needsMore_eq_false readable] at waits
      cases waits
    have static : ∀ r ∈ Session.faults true source, r.isStatic = true := fun r => Session.isStatic_of_mem_faults
    exact ⟨_, unreadable, static, Session.run_of_unreadable unreadable⟩

/-- A complete text, and one that is not. -/
theorem Shell.waits_for_unreadable_block :
    ((Scan.ofString "\x7b(nil);\x7d").errors = [] ∧
      (Stmt.parse (Scan.ofString "\x7b(nil);\x7d").list).errors = [] ∧ needsMore "\x7b(nil);\x7d" = false) ∧
    needsMore "\x7b(nil" = true ∧ ∃ rs : List Report, rs ≠ [] ∧ (∀ r ∈ rs, r.isStatic = true) ∧
      ∀ s : Session, s.run "\x7b(nil" = (s.report rs, .done .nil) := by
  have scans : (Scan.ofString "\x7b(nil);\x7d").errors = [] := by cbv
  have parses : (Stmt.parse (Scan.ofString "\x7b(nil);\x7d").list).errors = [] := by cbv
  have waits : needsMore "\x7b(nil" = true := by cbv
  have taken := ((waits_for_unreadable "\x7b(nil);\x7d").1 scans parses).2.2
  exact ⟨⟨scans, parses, congrArg Prod.snd taken⟩, waits, (waits_for_unreadable "\x7b(nil").2 waits⟩

end LoxScript
