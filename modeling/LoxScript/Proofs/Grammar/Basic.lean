import LoxScript.Proofs.Grammar.Spelled

/-!
# The grammar

The rules of the grammar, the texts they derive, and the principle by which what is derived is understood: a meaning
of the rules that every right-hand side respects holds of all that is derived.
-/

namespace LoxScript

namespace Grammar

inductive Terminal where
  | symbol (s : Symbol)
  | keyword (k : Keyword)
  | identifier
  | number
  | string
  deriving DecidableEq, Repr

def Terminal.Admits : Terminal → Token.Kind → Prop
  | symbol s, kind => kind = .symbol s
  | keyword k, kind => kind = .keyword k
  | identifier, kind => ∃ text, kind = .identifier text
  | number, kind => ∃ value, kind = .number value
  | string, kind => ∃ contents, kind = .string contents

inductive Rule where
  | program
  | declaration | classDecl | funDecl | function | parameters | varDecl
  | statement | exprStmt | forStmt | ifStmt | printStmt | returnStmt | whileStmt | block
  | expression | assignment | or | and | equality | comparison | term | factor | unary | call | arguments | primary
  deriving DecidableEq, Repr

inductive Phrase where
  | terminal (t : Terminal)
  | rule (r : Rule)
  | seq (a b : Phrase)
  | alt (a b : Phrase)
  | optional (a : Phrase)
  | many (a : Phrase)
  /-- At least one item and at most `maxArguments`, with commas between them. -/
  | list (a : Phrase)
  deriving DecidableEq, Repr

namespace Phrase

instance : Append Phrase := ⟨seq⟩

instance : OrOp Phrase := ⟨alt⟩

def sign (s : Symbol) : Phrase := terminal (.symbol s)

def word (k : Keyword) : Phrase := terminal (.keyword k)

def name : Phrase := terminal .identifier

def chain (operand operator : Phrase) : Phrase :=
  operand ++ many (operator ++ operand)

end Phrase

open Phrase in
/-- The grammar. A program and an expression are to be followed by the end of the text, which is no token. -/
def Rule.body : Rule → Phrase
  | program => many (rule declaration)
  | declaration => rule classDecl ||| rule funDecl ||| rule varDecl ||| rule statement
  | classDecl =>
      word .classWord ++ name ++ optional (sign .less ++ name) ++
        sign .leftBrace ++ many (rule function) ++ sign .rightBrace
  | funDecl => word .funWord ++ rule function
  | function => name ++ sign .leftParen ++ optional (rule parameters) ++ sign .rightParen ++ rule block
  | parameters => list name
  | varDecl => word .varWord ++ name ++ optional (sign .equal ++ rule expression) ++ sign .semicolon
  | statement =>
      rule exprStmt ||| rule forStmt ||| rule ifStmt ||| rule printStmt ||| rule returnStmt ||| rule whileStmt |||
        rule block
  | exprStmt => rule expression ++ sign .semicolon
  | forStmt =>
      word .forWord ++ sign .leftParen ++ (rule varDecl ||| rule exprStmt ||| sign .semicolon) ++
        optional (rule expression) ++ sign .semicolon ++ optional (rule expression) ++ sign .rightParen ++
        rule statement
  | ifStmt =>
      word .ifWord ++ sign .leftParen ++ rule expression ++ sign .rightParen ++ rule statement ++
        optional (word .elseWord ++ rule statement)
  | printStmt => word .printWord ++ rule expression ++ sign .semicolon
  | returnStmt => word .returnWord ++ optional (rule expression) ++ sign .semicolon
  | whileStmt =>
      word .whileWord ++ sign .leftParen ++ rule expression ++ sign .rightParen ++ rule statement
  | block => sign .leftBrace ++ many (rule declaration) ++ sign .rightBrace
  | expression => rule assignment
  | assignment => optional (rule call ++ sign .dot) ++ name ++ sign .equal ++ rule assignment ||| rule or
  | or => chain (rule and) (word .orWord)
  | and => chain (rule equality) (word .andWord)
  | equality => chain (rule comparison) (sign .bangEqual ||| sign .equalEqual)
  | comparison =>
      chain (rule term) (sign .greater ||| sign .greaterEqual ||| sign .less ||| sign .lessEqual)
  | term => chain (rule factor) (sign .minus ||| sign .plus)
  | factor => chain (rule unary) (sign .slash ||| sign .star)
  | unary => (sign .bang ||| sign .minus) ++ rule unary ||| rule call
  | call =>
      rule primary ++
        many (sign .leftParen ++ optional (rule arguments) ++ sign .rightParen ||| sign .dot ++ name)
  | arguments => list (rule expression)
  | primary =>
      word .trueWord ||| word .falseWord ||| word .nilWord ||| terminal .number ||| terminal .string |||
        sign .leftParen ++ rule expression ++ sign .rightParen ||| name ||| word .thisWord |||
        word .superWord ++ sign .dot ++ name

inductive Derives : Phrase → List Token → Prop where
  | terminal {t k} : t.Admits k.kind → Derives (.terminal t) [k]
  | rule {r w} : Derives r.body w → Derives (.rule r) w
  | seq {a b u v} : Derives a u → Derives b v → Derives (a ++ b) (u ++ v)
  | left {a b w} : Derives a w → Derives (a ||| b) w
  | right {a b w} : Derives b w → Derives (a ||| b) w
  | absent {a} : Derives (.optional a) []
  | present {a w} : Derives a w → Derives (.optional a) w
  | many {a} {ws : List (List Token)} : (∀ w ∈ ws, Derives a w) → Derives (.many a) ws.flatten
  | list {a ws v} : (∀ w ∈ ws, Derives a w) → ws ≠ [] → ws.length ≤ maxArguments → Commas ws v →
      Derives (.list a) v

namespace Phrase

/-- The texts of a right-hand side, if the texts of the rules are given. -/
def Means (L : Rule → List Token → Prop) : Phrase → List Token → Prop
  | terminal t, w => ∃ k, w = [k] ∧ t.Admits k.kind
  | rule r, w => L r w
  | seq a b, w => ∃ u v, w = u ++ v ∧ a.Means L u ∧ b.Means L v
  | alt a b, w => a.Means L w ∨ b.Means L w
  | optional a, w => w = [] ∨ a.Means L w
  | many a, w => ∃ ws : List (List Token), w = ws.flatten ∧ ∀ u ∈ ws, a.Means L u
  | list a, w => ∃ ws, Commas ws w ∧ ws ≠ [] ∧ ws.length ≤ maxArguments ∧ ∀ u ∈ ws, a.Means L u

end Phrase

namespace Derives

variable {L : Rule → List Token → Prop} {p : Phrase} {w : List Token} {r : Rule}

/-- What respects every right-hand side holds of all that is derived. -/
theorem means (closed : ∀ r w, r.body.Means L w → L r w) (h : Derives p w) : p.Means L w := by
  induction h with
  | terminal h => exact ⟨_, rfl, h⟩
  | rule _ ih => exact closed _ _ ih
  | seq _ _ iha ihb => exact ⟨_, _, rfl, iha, ihb⟩
  | left _ ih => exact .inl ih
  | right _ ih => exact .inr ih
  | absent => exact .inl rfl
  | present _ ih => exact .inr ih
  | many _ ih => exact ⟨_, rfl, ih⟩
  | list _ some_left few commas ih => exact ⟨_, commas, some_left, few, ih⟩

theorem of_means (h : p.Means (fun r w => Derives (.rule r) w) w) : Derives p w := by
  induction p generalizing w with
  | terminal t =>
      obtain ⟨k, rfl, hk⟩ := h
      exact .terminal hk
  | rule r => exact h
  | seq a b iha ihb =>
      obtain ⟨u, v, rfl, ha, hb⟩ := h
      exact .seq (iha ha) (ihb hb)
  | alt a b iha ihb =>
      cases h with
      | inl h => exact .left (iha h)
      | inr h => exact .right (ihb h)
  | optional a ih =>
      cases h with
      | inl h => exact h ▸ .absent
      | inr h => exact .present (ih h)
  | many a ih =>
      obtain ⟨ws, rfl, h⟩ := h
      exact .many fun u hu => ih (h u hu)
  | list a ih =>
      obtain ⟨ws, commas, some_left, few, h⟩ := h
      exact .list (fun u hu => ih (h u hu)) some_left few commas

/-- What is derived is put together from what the rules derive. -/
theorem understood (h : Derives p w) : p.Means (fun r w => Derives (.rule r) w) w :=
  h.means fun _ _ hw => .rule (of_means hw)

theorem body (h : Derives (.rule r) w) : Derives r.body w := by
  cases h with
  | rule h => exact h

theorem sign {s : Symbol} {t : Token} (h : t.kind = .symbol s) : Derives (.sign s) [t] :=
  .terminal h

theorem word {k : Keyword} {t : Token} (h : t.kind = .keyword k) : Derives (.word k) [t] :=
  .terminal h

theorem name {x : Name} {t : Token} (h : t.name? = some x) : Derives .name [t] :=
  .terminal ⟨x.text, (Token.kind_of_name? h).1⟩

/-- One more part at the end. -/
theorem snoc {a b : Phrase} {u v : List Token} (h : Derives (a ++ .many b) u) (hv : Derives b v) :
    Derives (a ++ .many b) (u ++ v) := by
  obtain ⟨u, _, rfl, ha, ws, rfl, hws⟩ := h.understood
  have parts : ∀ w ∈ ws ++ [v], Derives b w := by
    intro w hw
    rcases List.mem_append.1 hw with hw | hw
    · exact of_means (hws w hw)
    · exact List.mem_singleton.1 hw ▸ hv
  have whole : Derives (a ++ .many b) (u ++ (ws ++ [v]).flatten) := .seq (of_means ha) (.many parts)
  simpa using whole

/-- No further part. -/
theorem alone {a b : Phrase} {u : List Token} (h : Derives a u) : Derives (a ++ .many b) u := by
  have whole : Derives (a ++ .many b) (u ++ [].flatten) := .seq h (.many (by simp))
  simpa using whole

/-- A list that may be empty. -/
theorem optional_list {a : Phrase} {ws : List (List Token)} {v : List Token} (hr : r.body = .list a)
    (h : ∀ w ∈ ws, Derives a w) (few : ws.length ≤ maxArguments) (commas : Commas ws v) :
    Derives (.optional (.rule r)) v := by
  cases ws with
  | nil =>
      cases commas
      exact .absent
  | cons w ws => exact .present (.rule (hr ▸ .list h (List.cons_ne_nil w ws) few commas))

end Derives

end Grammar

end LoxScript
