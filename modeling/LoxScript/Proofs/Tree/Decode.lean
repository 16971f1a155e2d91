import LoxScript.Proofs.Tree.Legible
import LoxScript.Proofs.Tree.Lines

/-!
# Trees are read back from their nested lists

A nested list is decoded as an expression or as a statement. What a tree with legible words is written as is decoded as
the same tree, but for the lines.
-/

namespace LoxScript

namespace Nested

def number? (numbers : List Float) (w : String) : Option Float :=
  numbers.find? fun x => Number.plainText x = w

def leaf? (numbers : List Float) (w : String) : Option (Expr Unit) :=
  match w.toList with
  -- A string may contain anything but quotes, so that it comes before all other words.
  | '"' :: contents => some (.literal (.string (.ofList contents.dropLast)))
  | _ =>
      match Keyword.ofText? w, number? numbers w with
      | some .nilWord, _ => some (.literal .nil)
      | some .trueWord, _ => some (.literal (.bool true))
      | some .falseWord, _ => some (.literal (.bool false))
      | some .thisWord, _ => some (.this 0 ())
      | some _, _ => none
      | none, some x => some (.literal (.number x))
      | none, none => some (.var ⟨w, 0⟩ ())

def build? : String → List (Expr Unit) → Option (Expr Unit)
  | "group", [e] => some (.grouping e)
  | "super", [.var m _] => some (.super 0 m ())
  | ".", [o, .var x _] => some (.get o x)
  | "=", [.var x _, e] => some (.assign x () e)
  | "=", [.get o x, e] => some (.set o x e)
  | "call", f :: es => some (.call f 0 es)
  | "-", [e] => some (.unary .negate 0 e)
  | "!", [e] => some (.unary .not 0 e)
  | "==", [a, b] => some (.binary .equal 0 a b)
  | "!=", [a, b] => some (.binary .notEqual 0 a b)
  | ">", [a, b] => some (.binary .greater 0 a b)
  | ">=", [a, b] => some (.binary .greaterEqual 0 a b)
  | "<", [a, b] => some (.binary .less 0 a b)
  | "<=", [a, b] => some (.binary .lessEqual 0 a b)
  | "-", [a, b] => some (.binary .minus 0 a b)
  | "+", [a, b] => some (.binary .plus 0 a b)
  | "/", [a, b] => some (.binary .slash 0 a b)
  | "*", [a, b] => some (.binary .star 0 a b)
  | "and", [a, b] => some (.logical .and 0 a b)
  | "or", [a, b] => some (.logical .or 0 a b)
  | _, _ => none

theorem build?_unary (op : UnaryOp) (e : Expr Unit) : build? op.text [e] = some (.unary op 0 e) := by
  cases op <;> rfl

theorem build?_binary (op : BinaryOp) (a b : Expr Unit) : build? op.text [a, b] = some (.binary op 0 a b) := by
  cases op <;> rfl

theorem build?_logical (op : LogicalOp) (a b : Expr Unit) : build? op.text [a, b] = some (.logical op 0 a b) := by
  cases op <;> rfl

section Decoding

variable (numbers : List Float)

mutual

def expr? : Nested → Option (Expr Unit)
  | word w => leaf? numbers w
  | list [] => none
  | list (word head :: parts) => (exprs? parts).bind (build? head)
  | list (list _ :: _) => none

def exprs? : List Nested → Option (List (Expr Unit))
  | [] => some []
  | n :: ns => (expr? n).bind fun e => (exprs? ns).map (e :: ·)

end

def name? : Nested → Option Name
  | word w => some ⟨w, 0⟩
  | list _ => none

mutual

def stmt? : Nested → Option (Stmt Unit)
  | list (word head :: parts) =>
      match head, parts with
      | ";", [e] => (expr? numbers e).map .expression
      | "print", [e] => (expr? numbers e).map .print
      | "var", [x] => (name? x).map (.var · none)
      | "var", [x, _, e] => (name? x).bind fun x => (expr? numbers e).map fun e => .var x (some e)
      | "block", ss => (stmts? ss).map .block
      | "fun", x :: list ps :: ss =>
          (name? x).bind fun x => (ps.mapM name?).bind fun ps => (stmts? ss).map fun ss => .function (.mk x ps ss)
      -- The sign before a superclass is a word, where the first method would be a list.
      | "class", x :: word _ :: c :: ds =>
          (name? x).bind fun x => (name? c).bind fun c => (functions? ds).map (.classDecl x (some (c, ())))
      | "class", x :: ds => (name? x).bind fun x => (functions? ds).map (.classDecl x none)
      | "if", [c, t] => (expr? numbers c).bind fun c => (stmt? t).map (.ite c · none)
      | "if-else", [c, t, s] =>
          (expr? numbers c).bind fun c => (stmt? t).bind fun t => (stmt? s).map fun s => .ite c t (some s)
      | "return", [] => some (.ret 0 none)
      | "return", [e] => (expr? numbers e).map fun e => .ret 0 (some e)
      | "while", [c, s] => (expr? numbers c).bind fun c => (stmt? s).map (.loop c)
      | _, _ => none
  | _ => none

def stmts? : List Nested → Option (List (Stmt Unit))
  | [] => some []
  | n :: ns => (stmt? n).bind fun s => (stmts? ns).map (s :: ·)

def functions? : List Nested → Option (List (FunctionDecl Unit))
  | [] => some []
  | n :: ns =>
      match stmt? n with
      | some (.function d) => (functions? ns).map (d :: ·)
      | _ => none

end

end Decoding

variable {numbers : List Float}

theorem number?_eq_some {w : String} {x : Float} (h : number? numbers w = some x) :
    x ∈ numbers ∧ Number.plainText x = w :=
  ⟨List.mem_of_find?_eq_some h, by simpa using List.find?_some h⟩

theorem number?_plainText (told : Number.Told numbers) {x : Float} (hx : x ∈ numbers) :
    number? numbers (Number.plainText x) = some x := by
  cases found : number? numbers (Number.plainText x) with
  | none => simpa using List.find?_eq_none.1 found x hx
  | some y =>
      obtain ⟨hy, same⟩ := number?_eq_some found
      rw [told.inj y hy x hx same]

theorem leaf?_identifier (told : Number.Told numbers) {w : String} (h : Token.IsLexeme (.identifier w) w.toList) :
    leaf? numbers w = some (.var ⟨w, 0⟩ ()) := by
  obtain ⟨c, rest, text, letter, -, noKeyword⟩ := h.identifier_cons
  have noNumber : number? numbers w = none := by
    cases found : number? numbers w with
    | none => rfl
    | some x =>
        obtain ⟨hx, same⟩ := number?_eq_some found
        obtain ⟨d, hd, digit⟩ := told.digit x hx
        rw [same, text] at hd
        cases hd
        rw [Token.IsLexeme.not_isDigit_of_isLetter letter] at digit
        cases digit
  have no_quote : c ≠ '"' := by
    rintro rfl
    exact absurd letter (by decide)
  unfold leaf?
  rw [noNumber, noKeyword]
  split
  · rename_i same
    rw [text] at same
    exact absurd (List.cons.inj same).1 no_quote
  · rfl

theorem leaf?_literal (told : Number.Told numbers) {v : Literal} (h : ∀ k ∈ v.atoms, k.Legible numbers) :
    leaf? numbers v.text = some (.literal v) := by
  cases v with
  | nil => rfl
  | bool b => cases b <;> rfl
  | string s =>
      have text : ("\"" ++ s ++ "\"").toList = '"' :: (s.toList ++ ['"']) := by simp
      simp only [leaf?, Literal.text, text, List.dropLast_concat, String.ofList_toList]
  | number x =>
      obtain ⟨c, first, digit⟩ := told.digit x (h _ List.mem_cons_self)
      have no_quote : c ≠ '"' := by
        rintro rfl
        exact absurd digit (by decide)
      unfold leaf?
      have noKeyword : Keyword.ofText? (Number.plainText x) = none := by
        cases found : Keyword.ofText? (Number.plainText x) with
        | none => rfl
        | some k =>
            rw [← Keyword.text_of_ofText? found] at first
            have letter := Keyword.isLetter_of_mem (List.mem_of_mem_head? first)
            rw [Token.IsLexeme.not_isDigit_of_isLetter letter] at digit
            cases digit
      rw [Literal.text, noKeyword, number?_plainText told (h _ List.mem_cons_self)]
      split
      · rename_i same
        rw [same] at first
        exact absurd (Option.some.inj first).symm no_quote
      · rfl

theorem expr?_list {head : String} {ns : List Nested} {es : List (Expr Unit)} {e : Expr Unit}
    (parts : exprs? numbers ns = some es) (built : build? head es = some e) :
    expr? numbers (list (word head :: ns)) = some e := by
  rw [expr?, parts, Option.bind_some, built]

theorem exprs?_cons {n : Nested} {ns : List Nested} {e : Expr Unit} {es : List (Expr Unit)}
    (first : expr? numbers n = some e) (others : exprs? numbers ns = some es) :
    exprs? numbers (n :: ns) = some (e :: es) := by
  rw [exprs?, first, others]
  rfl

mutual

/-- An expression is decoded from its nested list if its atoms are legible. -/
theorem expr?_toNested (told : Number.Told numbers) {e : Expr Unit} (h : ∀ k ∈ e.atoms, k.Legible numbers) :
    expr? numbers e.toNested = some (e.mapLines fun _ => 0) := by
  have leaf {x : Name} (hx : x.kind.Legible numbers) : expr? numbers (word x.text) = some (.var ⟨x.text, 0⟩ ()) :=
    leaf?_identifier told hx
  cases e with
  | literal v => exact leaf?_literal told h
  | grouping e => exact expr?_list (exprs?_cons (expr?_toNested told (e := e) h) rfl) rfl
  | unary op _ e => exact expr?_list (exprs?_cons (expr?_toNested told (e := e) h) rfl) (build?_unary op _)
  | binary op _ a b =>
      obtain ⟨ha, hb⟩ := List.forall_mem_append.1 h
      exact expr?_list (exprs?_cons (expr?_toNested told ha) (exprs?_cons (expr?_toNested told hb) rfl))
        (build?_binary op _ _)
  | logical op _ a b =>
      obtain ⟨ha, hb⟩ := List.forall_mem_append.1 h
      exact expr?_list (exprs?_cons (expr?_toNested told ha) (exprs?_cons (expr?_toNested told hb) rfl))
        (build?_logical op _ _)
  | var x _ => exact leaf (h _ List.mem_cons_self)
  | assign x _ e =>
      obtain ⟨hx, he⟩ := List.forall_mem_cons.1 h
      exact expr?_list (exprs?_cons (leaf hx) (exprs?_cons (expr?_toNested told he) rfl)) rfl
  | call f _ es =>
      obtain ⟨hf, hes⟩ := List.forall_mem_append.1 h
      exact expr?_list (exprs?_cons (expr?_toNested told hf) (exprs?_toNestedAll told hes)) rfl
  | get o x =>
      obtain ⟨hx, ho⟩ := List.forall_mem_cons.1 h
      exact expr?_list (exprs?_cons (expr?_toNested told ho) (exprs?_cons (leaf hx) rfl)) rfl
  | set o x e =>
      obtain ⟨hx, hoe⟩ := List.forall_mem_cons.1 h
      obtain ⟨ho, he⟩ := List.forall_mem_append.1 hoe
      have target : expr? numbers (list [word ".", o.toNested, word x.text]) = some (.get _ _) :=
        expr?_list (exprs?_cons (expr?_toNested told ho) (exprs?_cons (leaf hx) rfl)) rfl
      exact expr?_list (exprs?_cons target (exprs?_cons (expr?_toNested told he) rfl)) rfl
  | this => rfl
  | super _ m _ => exact expr?_list (exprs?_cons (leaf (h _ List.mem_cons_self)) rfl) rfl

theorem exprs?_toNestedAll (told : Number.Told numbers) {es : List (Expr Unit)}
    (h : ∀ k ∈ Expr.atomsAll es, k.Legible numbers) :
    exprs? numbers (Expr.toNestedAll es) = some (Expr.mapLinesAll (fun _ => 0) es) := by
  cases es with
  | nil => rfl
  | cons e es =>
      obtain ⟨he, hes⟩ := List.forall_mem_append.1 h
      exact exprs?_cons (expr?_toNested told he) (exprs?_toNestedAll told hes)

end

theorem mapM_name? (ps : List Name) :
    (ps.map fun p => word p.text).mapM name? = some (ps.map (Name.mapLine fun _ => 0)) := by
  induction ps with
  | nil => rfl
  | cons x ps ih =>
      rw [List.map_cons, List.mapM_cons, ih]
      rfl

mutual

/-- A statement is decoded from its nested list if its atoms are legible. -/
theorem stmt?_toNested (told : Number.Told numbers) {s : Stmt Unit} (h : ∀ k ∈ s.atoms, k.Legible numbers) :
    stmt? numbers s.toNested = some (s.mapLines fun _ => 0) := by
  cases s with
  | expression e | print e => exact congrArg (Option.map _) (expr?_toNested told (e := e) h)
  | var x e =>
      obtain ⟨hx, he⟩ := List.forall_mem_cons.1 h
      cases e with
      | none => rfl
      | some e =>
          rw [Expr.atoms?_some] at he
          exact congrArg (Option.map _) (expr?_toNested told he)
  | block ss => exact congrArg (Option.map _) (stmts?_toNestedAll told h)
  | function d => exact function?_toNested told (d := d) h
  | classDecl x c ds =>
      obtain ⟨-, hcds⟩ := List.forall_mem_cons.1 h
      have methods := functions?_toNestedAll told (List.forall_mem_append.1 hcds).2
      cases c with
      | some p => exact congrArg (Option.map _) methods
      | none =>
          cases ds with
          | nil => rfl
          | cons d ds =>
              -- The first method has to be seen to be a list, or a superclass would be read.
              cases d
              exact congrArg (Option.map _) methods
  | ite c t s =>
      cases s with
      | none =>
          obtain ⟨hc, ht⟩ := List.forall_mem_append.1 h
          rw [Stmt.toNested, stmt?, expr?_toNested told hc, stmt?_toNested told ht]
          rfl
      | some s =>
          obtain ⟨hc, hts⟩ := List.forall_mem_append.1 h
          obtain ⟨ht, hs⟩ := List.forall_mem_append.1 hts
          rw [Stmt.toNested, stmt?, expr?_toNested told hc, stmt?_toNested told ht, stmt?_toNested told hs]
          rfl
  | ret _ e =>
      cases e with
      | none => rfl
      | some e =>
          rw [Stmt.atoms, Expr.atoms?_some] at h
          exact congrArg (Option.map _) (expr?_toNested told h)
  | loop c s =>
      obtain ⟨hc, hs⟩ := List.forall_mem_append.1 h
      rw [Stmt.toNested, stmt?, expr?_toNested told hc, stmt?_toNested told hs]
      rfl

theorem function?_toNested (told : Number.Told numbers) {d : FunctionDecl Unit}
    (h : ∀ k ∈ d.atoms, k.Legible numbers) : stmt? numbers d.toNested = some (.function (d.mapLines fun _ => 0)) := by
  cases d with
  | mk x ps ss =>
      obtain ⟨-, hpss⟩ := List.forall_mem_cons.1 h
      have body := stmts?_toNestedAll told (List.forall_mem_append.1 hpss).2
      rw [FunctionDecl.toNested, stmt?, mapM_name?, body]
      rfl

theorem stmts?_toNestedAll (told : Number.Told numbers) {ss : List (Stmt Unit)}
    (h : ∀ k ∈ Stmt.atomsAll ss, k.Legible numbers) :
    stmts? numbers (Stmt.toNestedAll ss) = some (Stmt.mapLinesAll (fun _ => 0) ss) := by
  cases ss with
  | nil => rfl
  | cons s ss =>
      obtain ⟨hs, hss⟩ := List.forall_mem_append.1 h
      rw [Stmt.toNestedAll, stmts?, stmt?_toNested told hs, stmts?_toNestedAll told hss]
      rfl

theorem functions?_toNestedAll (told : Number.Told numbers) {ds : List (FunctionDecl Unit)}
    (h : ∀ k ∈ FunctionDecl.atomsAll ds, k.Legible numbers) :
    functions? numbers (FunctionDecl.toNestedAll ds) = some (FunctionDecl.mapLinesAll (fun _ => 0) ds) := by
  cases ds with
  | nil => rfl
  | cons d ds =>
      obtain ⟨hd, hds⟩ := List.forall_mem_append.1 h
      rw [FunctionDecl.toNestedAll, functions?, function?_toNested told hd, functions?_toNestedAll told hds]
      rfl

end

end Nested

end LoxScript
