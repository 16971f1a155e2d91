import LoxScript.Proofs.Colour.Erase
import LoxScript.Report.Console

/-!
# Handlers that write at once

A handler composes the text of each report twice when the report is made: as the plain text that it keeps, and in
colour or without as it writes it to the stream, which programs write to as well. Every handler shows a console; with
and without colour a console is shown alike but for the marks of styles.
-/

namespace LoxScript

/-- How pieces that stand out are written by a handler, given how it is done in colour. -/
def Style.paintedBy (paint : Style → String → String) : Bool → Style → String → String
  | true => paint
  | false => plain

inductive Writer where
  | program
  | handler
  deriving DecidableEq, Repr

structure Chunk where
  writer : Writer
  text : String
  deriving DecidableEq, Repr

structure Handler where
  /-- Whether an error without a place ends the process. -/
  fatal : Bool
  color : Bool
  hadError : Bool
  hadRuntimeError : Bool
  /-- The plain texts of the reports, in order. -/
  reports : List String
  runtimeErrors : List RuntimeError
  output : List Chunk
  deriving DecidableEq, Repr

namespace Handler

def fresh (fatal color : Bool) : Handler :=
  { fatal := fatal, color := color, hadError := false, hadRuntimeError := false, reports := [], runtimeErrors := [],
    output := [] }

def stream (h : Handler) : String :=
  String.join (h.output.map Chunk.text)

def print (h : Handler) (line : String) : Handler :=
  { h with output := h.output ++ [⟨.program, line ++ "\n"⟩] }

def reset (h : Handler) : Handler :=
  { h with hadError := false }

section

-- How pieces that stand out are written in colour.
variable (paint : Style → String → String)

def report (h : Handler) (r : Report) : Handler :=
  { h with
    hadError := h.hadError || r.isStatic
    hadRuntimeError := h.hadRuntimeError || !r.isStatic
    reports := h.reports ++ [r.text]
    runtimeErrors :=
      match r with
      | .runtime error => h.runtimeErrors ++ [error]
      | .static _ _ _ | .general _ _ => h.runtimeErrors
    output := h.output ++ [⟨.handler, r.shown (Style.paintedBy paint h.color) ++ "\n"⟩] }

def reportAll (h : Handler) (rs : List Report) : Handler :=
  rs.foldl (report paint) h

/-- Reports an error without a place; the second component is the exit code if the process ends here. -/
def raise (h : Handler) (message : String) (internal : Bool) : Handler × Option Nat :=
  (h.report paint (.general message internal), if h.fatal then some Console.softwareFailure else none)

/-- Reports what made a guarded action stop, and says whether it stays inside the guard. -/
def leave (h : Handler) : Option Escape → Handler × Aftermath
  | none => (h, .passedOn)
  | some (.exit _) => (h, .passedOn)
  | some .interrupt => general h "keyboard interrupt" false .suppressed
  | some .overflow => general h "Stack overflow." false .suppressed
  | some (.runtime error) => (h.report paint (.runtime error), .suppressed)
  | some (.general message internal) => general h message internal .suppressed
  | some .rejected => general h "parse error" false .suppressed
  | some (.unforeseen name message) =>
      general h ("unknown error: '" ++ name ++ ": " ++ message ++ "'") true .passedOn
where
  general (h : Handler) (message : String) (internal : Bool) (otherwise : Aftermath) : Handler × Aftermath :=
    let (h, code) := h.raise paint message internal
    (h, (code.map Aftermath.processExit).getD otherwise)

end

end Handler

/-! ## Handlers that show a console -/

def Entry.chunk (paint : Style → String → String) (color : Bool) : Entry → Chunk
  | .written text => ⟨.program, text⟩
  | .reported r => ⟨.handler, r.shown (Style.paintedBy paint color) ++ "\n"⟩

namespace Console

variable (paint : Style → String → String) (color : Bool) (c : Console)

def handler : Handler where
  fatal := c.fatal
  color := color
  hadError := c.hadError
  hadRuntimeError := c.hadRuntimeError
  reports := c.reports.map Report.text
  runtimeErrors := c.runtimeErrors
  output := c.entries.toList.map (Entry.chunk paint color)

/-- The stream of the handler is the console as it is rendered. -/
theorem stream_handler : (c.handler Style.decorate color).stream = c.render color := by
  unfold Handler.stream handler render
  rw [List.map_map]
  refine congrArg String.join (List.map_congr_left fun entry _ => ?_)
  cases entry with
  | written text => rfl
  | reported r => cases color <;> rfl

theorem print_handler (line : String) : (c.handler paint color).print line = (c.print line).handler paint color := by
  simp [handler, Handler.print, print, write, reports, runtimeErrors, Entry.report?, Entry.chunk]

theorem report_handler (r : Report) :
    (c.handler paint color).report paint r = (c.report r).handler paint color := by
  cases r <;> simp [handler, Handler.report, report, reports, runtimeErrors, Entry.report?, Entry.chunk]

theorem reportAll_handler (rs : List Report) :
    (c.handler paint color).reportAll paint rs = (c.reportAll rs).handler paint color := by
  unfold Handler.reportAll reportAll
  induction rs generalizing c with
  | nil => rfl
  | cons r rs ih => rw [List.foldl_cons, List.foldl_cons, report_handler, ih]

theorem prints_handler (lines : List String) :
    lines.foldl Handler.print (c.handler paint color) = (lines.foldl print c).handler paint color := by
  induction lines generalizing c with
  | nil => rfl
  | cons line lines ih => rw [List.foldl_cons, List.foldl_cons, print_handler, ih]

theorem leave_handler (o : Option Escape) :
    (c.handler paint color).leave paint o = ((c.leave o).1.handler paint color, (c.leave o).2) := by
  have general (message : String) (internal : Bool) (otherwise : Aftermath) :
      Handler.leave.general paint (c.handler paint color) message internal otherwise =
        ((leave.general c message internal otherwise).1.handler paint color,
          (leave.general c message internal otherwise).2) := by
    have told := report_handler paint color c (.general message internal)
    simp only [Handler.leave.general, Handler.raise, leave.general, raise, told]
    rfl
  cases o with
  | none => rfl
  | some e =>
      cases e with
      | exit code => rfl
      | runtime error => exact congrArg (·, _) (report_handler paint color c (.runtime error))
      | interrupt | overflow | general | rejected | unforeseen => exact general _ _ _

end Console

/-! ## Colour -/

def Entry.Clean : Entry → Prop
  | .written text => LoxScript.Clean text
  | .reported r => r.Clean

def Console.Clean (c : Console) : Prop :=
  ∀ entry ∈ c.entries, entry.Clean

/-- The same piece of two streams, in colour and plain: what programs write is the same, and without marks so is what
handlers write. -/
structure Chunk.Recoloured (c p : Chunk) : Prop where
  writer : c.writer = p.writer
  written : c.writer = .program → c.text = p.text
  erased : Styled c.text p.text

/-- Two handlers, one in colour and one plain, that differ in nothing but the marks of styles. -/
structure Handler.Recoloured (c p : Handler) : Prop where
  hadError : c.hadError = p.hadError
  hadRuntimeError : c.hadRuntimeError = p.hadRuntimeError
  reports : c.reports = p.reports
  runtimeErrors : c.runtimeErrors = p.runtimeErrors
  /-- The pieces of the streams correspond to each other, in their order. -/
  pieces : List.Forall₂ Chunk.Recoloured c.output p.output
  /-- Without its marks the stream in colour is the plain one. -/
  erased : .ofList (eraseMarks c.stream.toList) = p.stream
  /-- The plain handler writes its reports, each on lines of its own. -/
  plain : (p.output.filter (·.writer = .handler)).map Chunk.text = p.reports.map (· ++ "\n")

variable {paint : Style → String → String}

theorem Entry.recoloured_chunk (h : Style.Surrounds paint) {entry : Entry} (clean : entry.Clean) :
    (entry.chunk paint true).Recoloured (entry.chunk paint false) := by
  cases entry with
  | written text => exact ⟨rfl, fun _ => rfl, .clean clean⟩
  | reported r =>
      have styled : Styled (r.shown paint) (r.shown Style.plain) := by
        rw [Report.shown_plain]
        exact Report.styled_shown h clean
      exact ⟨rfl, nofun, styled.append (.clean (by decide))⟩

theorem Chunk.styled_join {cs ps : List Chunk} (h : List.Forall₂ Recoloured cs ps) :
    Styled (String.join (cs.map text)) (String.join (ps.map text)) := by
  induction h with
  | nil => exact .empty
  | cons first _ ih =>
      rw [List.map_cons, List.map_cons, String.join_cons, String.join_cons]
      exact first.erased.append ih

theorem Entry.plain_texts (entries : List Entry) :
    ((entries.map (chunk paint false)).filter (·.writer = .handler)).map Chunk.text =
      (entries.filterMap report?).map (·.text ++ "\n") := by
  induction entries with
  | nil => rfl
  | cons entry entries ih =>
      cases entry with
      | written text => exact ih
      | reported r => exact congrArg₂ (· :: ·) (congrArg (· ++ "\n") r.shown_plain) ih

/-- In colour and without, a clean console is shown alike but for the marks of styles. -/
theorem Console.Clean.recoloured {c : Console} (clean : c.Clean) (h : Style.Surrounds paint) :
    (c.handler paint true).Recoloured (c.handler paint false) := by
  have pieces : List.Forall₂ Chunk.Recoloured (c.handler paint true).output (c.handler paint false).output := by
    rw [handler, handler, List.forall₂_map_left_iff, List.forall₂_map_right_iff, List.forall₂_same]
    intro entry mem
    exact Entry.recoloured_chunk h (clean entry (Array.mem_toList_iff.1 mem))
  refine ⟨rfl, rfl, rfl, rfl, pieces, (Chunk.styled_join pieces).erase, ?_⟩
  unfold handler reports
  rw [Entry.plain_texts, List.map_map]
  rfl

end LoxScript
