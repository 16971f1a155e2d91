/-!
# Lines of text

Line ends of files are normalised to a single newline when a script is read. Interactive input is cut into
lines at newlines alone.
-/

namespace LoxScript

namespace Text

def normalizeNewlines : List Char → List Char
  | [] => []
  | '\r' :: '\n' :: rest => '\n' :: normalizeNewlines rest
  | c :: rest => (if c = '\r' then '\n' else c) :: normalizeNewlines rest

theorem not_mem_normalizeNewlines (text : List Char) : '\r' ∉ normalizeNewlines text := by
  fun_induction normalizeNewlines text with
  | case1 => simp
  | case2 rest ih => simpa using ih
  | case3 c rest _ ih => by_cases h : c = '\r' <;> simp_all [eq_comm]

/-- Cuts a text at its newlines; what follows the last newline is a line only if it is not empty. -/
def splitLines : List Char → List (List Char)
  | [] => []
  | '\n' :: rest => [] :: splitLines rest
  | c :: rest =>
      match splitLines rest with
      | [] => [[c]]
      | line :: lines => (c :: line) :: lines

def lines (s : String) : List String :=
  (splitLines s.toList).map String.ofList

end Text

end LoxScript
