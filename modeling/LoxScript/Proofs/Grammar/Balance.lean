import Mathlib.Algebra.BigOperators.Group.List.Basic
import Mathlib.Algebra.Ring.Int.Defs
import LoxScript.Proofs.Grammar.Derived
import LoxScript.Proofs.Grammar.Sound
import LoxScript.Session.Shell

/-!
# Brackets are balanced

By how much the brackets of a kind that a text opens exceed those that it closes can be read off a right-hand side
of the grammar, if what the rules derive is balanced. Every rule then comes out balanced itself.
-/

namespace LoxScript

inductive Bracket where
  | paren
  | brace
  deriving DecidableEq, Repr

namespace Bracket

def opener : Bracket → Symbol
  | paren => .leftParen
  | brace => .leftBrace

def closer : Bracket → Symbol
  | paren => .rightParen
  | brace => .rightBrace

theorem opener_ne_closer (b : Bracket) : b.opener ≠ b.closer := by
  cases b <;> decide

def weight (b : Bracket) (t : Token) : Int :=
  if t.isSymbol b.opener then 1 else if t.isSymbol b.closer then -1 else 0

def excess (b : Bracket) (w : List Token) : Int :=
  (w.map b.weight).sum

variable (b : Bracket)

@[simp]
theorem excess_nil : b.excess [] = 0 := rfl

@[simp]
theorem excess_cons (t : Token) (w : List Token) : b.excess (t :: w) = b.weight t + b.excess w := by
  simp [excess]

@[simp]
theorem excess_append (u v : List Token) : b.excess (u ++ v) = b.excess u + b.excess v := by
  simp [excess]

variable {b}

theorem excess_flatten {ws : List (List Token)} (h : ∀ w ∈ ws, b.excess w = 0) : b.excess ws.flatten = 0 := by
  induction ws with
  | nil => rfl
  | cons w ws ih =>
      have first := h w List.mem_cons_self
      have rest := ih fun u hu => h u (List.mem_cons_of_mem _ hu)
      rw [List.flatten_cons, excess_append, first, rest, zero_add]

/-- Commas add nothing. -/
theorem excess_commas {ws : List (List Token)} {v : List Token} (commas : Commas ws v)
    (h : ∀ w ∈ ws, b.excess w = 0) : b.excess v = 0 := by
  induction commas with
  | nil => rfl
  | one => exact h _ List.mem_cons_self
  | @cons w u us t v ht _ ih =>
      have first := h w List.mem_cons_self
      have comma : b.weight t = 0 := by cases b <;> simp [weight, Token.isSymbol, ht, opener, closer]
      have rest := ih fun x hx => h x (List.mem_cons_of_mem _ hx)
      rw [excess_append, excess_cons, first, comma, rest, zero_add, zero_add]

/-- The excess is the difference of the numbers of brackets. -/
theorem excess_eq (w : List Token) :
    b.excess w = (w.countP (·.isSymbol b.opener) : Int) - w.countP (·.isSymbol b.closer) := by
  induction w with
  | nil => rfl
  | cons t w ih =>
      have apart := b.opener_ne_closer
      rw [excess_cons, ih, List.countP_cons, List.countP_cons]
      grind [weight, Token.isSymbol]

end Bracket

namespace Grammar

def Terminal.weight (b : Bracket) (t : Terminal) : Int :=
  if t = .symbol b.opener then 1 else if t = .symbol b.closer then -1 else 0

theorem Terminal.Admits.weight {b : Bracket} {t : Terminal} {k : Token} (h : t.Admits k.kind) :
    b.weight k = t.weight b := by
  unfold Bracket.weight Terminal.weight Token.isSymbol
  cases t with
  | symbol s =>
      have hk : k.kind = .symbol s := h
      simp [hk]
  | keyword w =>
      have hk : k.kind = .keyword w := h
      simp [hk]
  | identifier | number | string =>
      obtain ⟨_, hk⟩ := h
      simp [hk]

/-- The excess that all texts of a right-hand side have in common, if they have one. -/
def Phrase.excess? (b : Bracket) : Phrase → Option Int
  | terminal t => some (t.weight b)
  | rule _ => some 0
  | seq p q => do return (← p.excess? b) + (← q.excess? b)
  | alt p q => if p.excess? b = q.excess? b then p.excess? b else none
  | optional p | many p | list p => if p.excess? b = some 0 then some 0 else none

theorem Phrase.excess_of_means {b : Bracket} {p : Phrase} {w : List Token} {k : Int} (h : p.excess? b = some k)
    (hw : p.Means (fun _ w => b.excess w = 0) w) : b.excess w = k := by
  induction p generalizing w k with
  | terminal t =>
      obtain ⟨token, rfl, admits⟩ := hw
      cases h
      rw [Bracket.excess_cons, Bracket.excess_nil, admits.weight, add_zero]
  | rule r =>
      cases h
      exact hw
  | seq p q ihp ihq =>
      obtain ⟨u, v, rfl, hu, hv⟩ := hw
      obtain ⟨i, hi, j, hj, rfl⟩ : ∃ i, p.excess? b = some i ∧ ∃ j, q.excess? b = some j ∧ i + j = k := by
        simpa [excess?, Option.bind_eq_some_iff] using h
      rw [Bracket.excess_append, ihp hi hu, ihq hj hv]
  | alt p q ihp ihq =>
      obtain ⟨same, hp⟩ : p.excess? b = q.excess? b ∧ p.excess? b = some k := by simpa [excess?] using h
      cases hw with
      | inl hw => exact ihp hp hw
      | inr hw => exact ihq (same ▸ hp) hw
  | optional p ih =>
      obtain ⟨hp, rfl⟩ : p.excess? b = some 0 ∧ 0 = k := by simpa [excess?] using h
      rcases hw with rfl | hw
      · rfl
      · exact ih hp hw
  | many p ih =>
      obtain ⟨hp, rfl⟩ : p.excess? b = some 0 ∧ 0 = k := by simpa [excess?] using h
      obtain ⟨ws, rfl, hws⟩ := hw
      exact Bracket.excess_flatten fun u hu => ih hp (hws u hu)
  | list p ih =>
      obtain ⟨hp, rfl⟩ : p.excess? b = some 0 ∧ 0 = k := by simpa [excess?] using h
      obtain ⟨ws, commas, _, _, hws⟩ := hw
      exact Bracket.excess_commas commas fun u hu => ih hp (hws u hu)

/-- Each right-hand side closes the brackets that it opens. -/
theorem Rule.excess?_body (b : Bracket) (r : Rule) : r.body.excess? b = some 0 := by
  cases b <;> cases r <;> rfl

/-- Whatever a rule derives is balanced. -/
theorem Derives.excess_eq_zero {r : Rule} {w : List Token} (h : Derives (.rule r) w) (b : Bracket) :
    b.excess w = 0 :=
  h.means fun r _ hw => Phrase.excess_of_means (r.excess?_body b) hw

end Grammar

namespace TokenList

variable {ts : TokenList}

/-- In a text that the parser accepts, brackets of each kind are balanced. -/
theorem countP_opener (quiet : (Stmt.parse ts).errors = []) (b : Bracket) :
    ts.tokens.countP (·.isSymbol b.opener) = ts.tokens.countP (·.isSymbol b.closer) := by
  have balanced := (Stmt.spelled_of_parse quiet).derives.excess_eq_zero b
  rw [Bracket.excess_eq] at balanced
  omega

/-- Tokens of one of two kinds, counted apart. -/
theorem countP_isSymbol_or {a b : Symbol} (ne : a ≠ b) (w : List Token) :
    w.countP (fun t => t.isSymbol a || t.isSymbol b) = w.countP (·.isSymbol a) + w.countP (·.isSymbol b) := by
  induction w with
  | nil => rfl
  | cons t w ih =>
      rw [List.countP_cons, List.countP_cons, List.countP_cons, ih]
      grind [Token.isSymbol]

theorem countP_isOpener (quiet : (Stmt.parse ts).errors = []) :
    ts.tokens.countP isOpener = ts.tokens.countP isCloser := by
  have parens := countP_opener quiet .paren
  have braces := countP_opener quiet .brace
  have opening := countP_isSymbol_or (a := .leftParen) (b := .leftBrace) (by decide) ts.tokens
  have closing := countP_isSymbol_or (a := .rightParen) (b := .rightBrace) (by decide) ts.tokens
  exact opening.trans ((congrArg₂ (· + ·) parens braces).trans closing.symm)

end TokenList

end LoxScript
