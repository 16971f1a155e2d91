import LoxScript.Proofs.Number.Text
import LoxScript.Proofs.Scope.Complete
import LoxScript.Proofs.Scope.Violation
import LoxScript.Proofs.Token.Join
import LoxScript.Proofs.Tree.Atoms
import LoxScript.Report.Basic
import LoxScript.Tree.Lisp

/-!
# Texts without escape characters

The sequences that a terminal takes for commands begin with one character. If it does not occur in a text, then it
occurs neither in the tree of the text nor in any of the errors that are found before the text runs.
-/

namespace LoxScript

/-- The character with which the sequences of a terminal begin. -/
def escapeChar : Char := '\x1b'

/-- A text without escape characters. -/
def Clean (text : String) : Prop :=
  escapeChar ∉ text.toList

instance : DecidablePred Clean := fun text => inferInstanceAs (Decidable (escapeChar ∉ text.toList))

namespace Clean

variable {s t : String}

theorem append_iff : Clean (s ++ t) ↔ Clean s ∧ Clean t := by
  unfold Clean
  rw [String.toList_append, List.mem_append, not_or]

theorem append (hs : Clean s) (ht : Clean t) : Clean (s ++ t) :=
  append_iff.2 ⟨hs, ht⟩

theorem ofList_iff {cs : List Char} : Clean (.ofList cs) ↔ escapeChar ∉ cs := by
  unfold Clean
  rw [String.toList_ofList]

theorem nat (n : Nat) : Clean (toString n) := by
  intro h
  have digit : escapeChar.isDigit = true :=
    Nat.isDigit_of_mem_toDigits (by decide) (by decide) (Nat.toList_repr (n := n) ▸ h)
  exact absurd digit (by decide)

theorem int (n : Int) : Clean (toString n) := by
  cases n with
  | ofNat n => exact nat n
  | negSucc n => exact append (by decide) (nat (n + 1))

theorem number (x : Float) : Clean (Number.plainText x) := by
  intro h
  have numeric : Number.IsNumeric escapeChar := Number.isNumeric_plainText h
  unfold Number.IsNumeric at numeric
  exact absurd numeric (by decide)

theorem intercalate {texts : List String} (ht : Clean t) (h : ∀ s ∈ texts, Clean s) :
    Clean (t.intercalate texts) := by
  induction texts with
  | nil => exact List.not_mem_nil
  | cons s texts ih =>
      rw [List.forall_mem_cons] at h
      cases texts with
      | nil => exact h.1
      | cons s' texts =>
          rw [String.intercalate_cons_cons]
          exact append (append h.1 ht) (ih h.2)

theorem listText {head : String} {parts : List String} (hh : Clean head) (h : ∀ s ∈ parts, Clean s) :
    Clean (LoxScript.listText head parts) :=
  append (append (by decide) (intercalate (by decide) (List.forall_mem_cons.2 ⟨hh, h⟩))) (by decide)

end Clean

/-! ## Trees -/

def Token.Kind.Clean : Token.Kind → Prop
  | .identifier name => LoxScript.Clean name
  | .string s => LoxScript.Clean s
  | .symbol _ | .keyword _ | .number _ => True

theorem Symbol.clean_text (s : Symbol) : Clean s.text := by
  cases s <;> decide

theorem Keyword.clean_text (k : Keyword) : Clean k.text := by
  cases k <;> decide

theorem Literal.clean_text {v : Literal} (h : ∀ k ∈ v.atoms, k.Clean) : Clean v.text := by
  cases v with
  | nil => decide
  | bool b => cases b <;> decide
  | number x => exact Clean.number x
  | string s => exact Clean.append (Clean.append (by decide) (h _ List.mem_cons_self)) (by decide)

section

variable {ρ : Type}

def Expr.Clean (e : Expr ρ) : Prop :=
  ∀ k ∈ e.atoms, k.Clean

def Stmt.Clean (s : Stmt ρ) : Prop :=
  ∀ k ∈ s.atoms, k.Clean

def FunctionDecl.Clean (d : FunctionDecl ρ) : Prop :=
  ∀ k ∈ d.atoms, k.Clean

theorem Expr.forall_clean {es : List (Expr ρ)} (h : ∀ k ∈ atomsAll es, k.Clean) : ∀ e ∈ es, e.Clean := by
  rw [atomsAll_eq_flatMap, List.forall_mem_flatMap] at h
  exact h

theorem Stmt.forall_clean {ss : List (Stmt ρ)} (h : ∀ k ∈ atomsAll ss, k.Clean) : ∀ s ∈ ss, s.Clean := by
  rw [atomsAll_eq_flatMap, List.forall_mem_flatMap] at h
  exact h

theorem FunctionDecl.forall_clean {ds : List (FunctionDecl ρ)} (h : ∀ k ∈ atomsAll ds, k.Clean) :
    ∀ d ∈ ds, d.Clean := by
  rw [atomsAll_eq_flatMap, List.forall_mem_flatMap] at h
  exact h

theorem Expr.forall_clean? {e : Option (Expr ρ)} (h : ∀ k ∈ atoms? e, k.Clean) : ∀ i ∈ e, i.Clean := by
  rintro i ⟨⟩
  rwa [atoms?_some] at h

namespace Expr

mutual

theorem clean_toLisp (e : Expr ρ) (h : e.Clean) : LoxScript.Clean e.toLisp := by
  match e with
  | .literal v => exact Literal.clean_text h
  | .grouping e => exact .listText (by decide) (by simpa using e.clean_toLisp h)
  | .unary op _ e => exact .listText op.symbol.clean_text (by simpa using e.clean_toLisp h)
  | .binary op _ a b =>
      have h := List.forall_mem_append.1 h
      exact .listText op.symbol.clean_text (by simpa using ⟨a.clean_toLisp h.1, b.clean_toLisp h.2⟩)
  | .logical op _ a b =>
      have h := List.forall_mem_append.1 h
      exact .listText op.keyword.clean_text (by simpa using ⟨a.clean_toLisp h.1, b.clean_toLisp h.2⟩)
  | .var n _ => exact h _ List.mem_cons_self
  | .assign n _ e =>
      have h := List.forall_mem_cons.1 h
      exact .listText (by decide) (by simpa using ⟨h.1, e.clean_toLisp h.2⟩)
  | .call f _ es =>
      have h := List.forall_mem_append.1 h
      exact .listText (by decide) (List.forall_mem_cons.2 ⟨f.clean_toLisp h.1, clean_toLispAll es h.2⟩)
  | .get e n =>
      have h := List.forall_mem_cons.1 h
      exact .listText (by decide) (by simpa using ⟨e.clean_toLisp h.2, h.1⟩)
  | .set e n v =>
      have h := List.forall_mem_cons.1 h
      have parts := List.forall_mem_append.1 h.2
      have target : LoxScript.Clean (listText "." [e.toLisp, n.text]) :=
        .listText (by decide) (by simpa using ⟨e.clean_toLisp parts.1, h.1⟩)
      exact .listText (by decide) (by simpa using ⟨target, v.clean_toLisp parts.2⟩)
  | .this _ _ => exact Keyword.thisWord.clean_text
  | .super _ n _ => exact .listText (by decide) (List.forall_mem_singleton.2 (h _ List.mem_cons_self))

theorem clean_toLispAll (es : List (Expr ρ)) (h : ∀ k ∈ atomsAll es, k.Clean) :
    ∀ s ∈ toLispAll es, LoxScript.Clean s := by
  match es with
  | [] => exact nofun
  | e :: es =>
      have h := List.forall_mem_append.1 h
      exact List.forall_mem_cons.2 ⟨e.clean_toLisp h.1, clean_toLispAll es h.2⟩

end

end Expr

mutual

theorem Stmt.clean_toLisp (s : Stmt ρ) (h : s.Clean) : LoxScript.Clean s.toLisp := by
  match s with
  | .expression e | .print e => exact .listText (by decide) (List.forall_mem_singleton.2 (e.clean_toLisp h))
  | .var n none => exact .listText (by decide) (List.forall_mem_singleton.2 (h _ List.mem_cons_self))
  | .var n (some e) =>
      have h := List.forall_mem_cons.1 h
      have value := Expr.forall_clean? h.2 e rfl
      have equals : LoxScript.Clean "=" := by decide
      exact .listText (by decide) (by simpa using ⟨h.1, equals, e.clean_toLisp value⟩)
  | .block body => exact .listText (by decide) (Stmt.clean_toLispAll body h)
  | .function d => exact d.clean_toLisp h
  | .classDecl n none ds =>
      have h := List.forall_mem_cons.1 h
      exact .listText (by decide) (List.forall_mem_cons.2 ⟨h.1, FunctionDecl.clean_toLispAll ds h.2⟩)
  | .classDecl n (some (c, _)) ds =>
      have h := List.forall_mem_cons.1 h
      have behind := List.forall_mem_cons.1 h.2
      have methods := FunctionDecl.clean_toLispAll ds behind.2
      have head : ∀ s ∈ [n.text, "<", c.text], LoxScript.Clean s :=
        List.forall_mem_cons.2 ⟨h.1, List.forall_mem_cons.2 ⟨by decide, List.forall_mem_singleton.2 behind.1⟩⟩
      exact .listText (by decide) (List.forall_mem_append.2 ⟨head, methods⟩)
  | .ite e t none =>
      have h := List.forall_mem_append.1 h
      exact .listText (by decide) (by simpa using ⟨e.clean_toLisp h.1, t.clean_toLisp h.2⟩)
  | .ite e t (some u) =>
      have h := List.forall_mem_append.1 h
      have branches := List.forall_mem_append.1 h.2
      exact .listText (by decide)
        (by simpa using ⟨e.clean_toLisp h.1, t.clean_toLisp branches.1, u.clean_toLisp branches.2⟩)
  | .ret _ none => exact (by decide : LoxScript.Clean "(return)")
  | .ret _ (some e) =>
      exact .listText (by decide) (List.forall_mem_singleton.2 (e.clean_toLisp (Expr.forall_clean? h e rfl)))
  | .loop e body =>
      have h := List.forall_mem_append.1 h
      exact .listText (by decide) (by simpa using ⟨e.clean_toLisp h.1, body.clean_toLisp h.2⟩)

theorem FunctionDecl.clean_toLisp (d : FunctionDecl ρ) (h : d.Clean) : LoxScript.Clean d.toLisp := by
  match d with
  | .mk n params body =>
      have h := List.forall_mem_cons.1 h
      have inner := List.forall_mem_append.1 h.2
      have names : ∀ s ∈ params.map Name.text, LoxScript.Clean s :=
        List.forall_mem_map.2 fun p hp => inner.1 p.kind (List.mem_map_of_mem hp)
      have list : LoxScript.Clean ("(" ++ " ".intercalate (params.map Name.text) ++ ")") :=
        .append (.append (by decide) (.intercalate (by decide) names)) (by decide)
      exact .listText (by decide)
        (List.forall_mem_cons.2 ⟨h.1, List.forall_mem_cons.2 ⟨list, Stmt.clean_toLispAll body inner.2⟩⟩)

theorem Stmt.clean_toLispAll (ss : List (Stmt ρ)) (h : ∀ k ∈ Stmt.atomsAll ss, k.Clean) :
    ∀ t ∈ Stmt.toLispAll ss, LoxScript.Clean t := by
  match ss with
  | [] => exact nofun
  | s :: ss =>
      have h := List.forall_mem_append.1 h
      exact List.forall_mem_cons.2 ⟨s.clean_toLisp h.1, Stmt.clean_toLispAll ss h.2⟩

theorem FunctionDecl.clean_toLispAll (ds : List (FunctionDecl ρ)) (h : ∀ k ∈ FunctionDecl.atomsAll ds, k.Clean) :
    ∀ t ∈ FunctionDecl.toLispAll ds, LoxScript.Clean t := by
  match ds with
  | [] => exact nofun
  | d :: ds =>
      have h := List.forall_mem_append.1 h
      exact List.forall_mem_cons.2 ⟨d.clean_toLisp h.1, FunctionDecl.clean_toLispAll ds h.2⟩

end

end

end LoxScript
