import Mathlib
import LoxScript.Proofs.Tree.Lines
import LoxScript.Tree.Polish

/-!
# Expressions as operations on a stack

An expression in reverse Polish notation is a sequence of operations, each of which takes its operands from a stack and
leaves its result there. Performing them builds the expression again, without its groupings and its lines.
-/

namespace LoxScript

/-- What a tree does at one of its nodes, once the operands are there. -/
inductive StackOp where
  | literal (v : Literal)
  | var (x : String)
  | this
  | super (method : String)
  | unary (op : UnaryOp)
  | binary (op : BinaryOp)
  | logical (op : LogicalOp)
  | assign (x : String)
  | call (arguments : Nat)
  | get (x : String)
  | set (x : String)
  deriving DecidableEq

namespace StackOp

def words : StackOp → List String
  | literal v => [v.text]
  | var x => [x]
  | this => ["this"]
  | super m => ["super", "." ++ m]
  | unary op => [op.polishText]
  | binary op => [op.text]
  | logical op => [op.text]
  | assign x => [x, "="]
  | call n => ["call/" ++ toString n]
  | get x => ["." ++ x]
  | set x => ["." ++ x, "="]

theorem words_ne_nil (p : StackOp) : p.words ≠ [] := by
  cases p <;> exact List.cons_ne_nil _ _

/-- Takes the operands from the stack and leaves the result. The last operand is on top. -/
def perform : StackOp → List (Expr Unit) → Option (List (Expr Unit))
  | literal v, s => some (.literal v :: s)
  | var x, s => some (.var ⟨x, 0⟩ () :: s)
  | this, s => some (.this 0 () :: s)
  | super m, s => some (.super 0 ⟨m, 0⟩ () :: s)
  | unary op, e :: s => some (.unary op 0 e :: s)
  | binary op, b :: a :: s => some (.binary op 0 a b :: s)
  | logical op, b :: a :: s => some (.logical op 0 a b :: s)
  | assign x, e :: s => some (.assign ⟨x, 0⟩ () e :: s)
  | call n, f :: s => some (.call f 0 (s.take n).reverse :: s.drop n)
  | get x, o :: s => some (.get o ⟨x, 0⟩ :: s)
  | set x, o :: e :: s => some (.set o ⟨x, 0⟩ e :: s)
  | _, _ => none

def performAll : List StackOp → List (Expr Unit) → Option (List (Expr Unit))
  | [], s => some s
  | p :: ps, s => (p.perform s).bind (performAll ps)

def growth : StackOp → Int
  | literal _ | var _ | this | super _ => 1
  | unary _ | assign _ | get _ => 0
  | binary _ | logical _ | set _ => -1
  | call n => -n

end StackOp

namespace Expr

variable {ρ : Type}

mutual

def ungrouped : Expr ρ → Expr ρ
  | .literal v => .literal v
  | .grouping e => e.ungrouped
  | .unary op line e => .unary op line e.ungrouped
  | .binary op line a b => .binary op line a.ungrouped b.ungrouped
  | .logical op line a b => .logical op line a.ungrouped b.ungrouped
  | .var x r => .var x r
  | .assign x r e => .assign x r e.ungrouped
  | .call f line es => .call f.ungrouped line (ungroupedAll es)
  | .get o x => .get o.ungrouped x
  | .set o x e => .set o.ungrouped x e.ungrouped
  | .this line r => .this line r
  | .super line m r => .super line m r

def ungroupedAll : List (Expr ρ) → List (Expr ρ)
  | [] => []
  | e :: es => e.ungrouped :: ungroupedAll es

end

mutual

/-- The operations of a tree, operands first. The value of an assignment comes before its target. -/
def stackOps : Expr ρ → List StackOp
  | .literal v => [.literal v]
  | .grouping e => e.stackOps
  | .unary op _ e => e.stackOps ++ [.unary op]
  | .binary op _ a b => a.stackOps ++ (b.stackOps ++ [.binary op])
  | .logical op _ a b => a.stackOps ++ (b.stackOps ++ [.logical op])
  | .var x _ => [.var x.text]
  | .assign x _ e => e.stackOps ++ [.assign x.text]
  | .call f _ es => stackOpsAll es ++ (f.stackOps ++ [.call es.length])
  | .get o x => o.stackOps ++ [.get x.text]
  | .set o x e => e.stackOps ++ (o.stackOps ++ [.set x.text])
  | .this _ _ => [.this]
  | .super _ m _ => [.super m.text]

def stackOpsAll : List (Expr ρ) → List StackOp
  | [] => []
  | e :: es => e.stackOps ++ stackOpsAll es

end

theorem length_ungroupedAll (es : List (Expr ρ)) : (ungroupedAll es).length = es.length := by
  induction es with
  | nil => rfl
  | cons e es ih => rw [ungroupedAll, List.length_cons, List.length_cons, ih]

/-! ## The tree from its operations -/

/-- What is left of a tree without its groupings and lines. -/
def bare (e : Expr Unit) : Expr Unit :=
  e.ungrouped.mapLines fun _ => 0

def bareAll (es : List (Expr Unit)) : List (Expr Unit) :=
  mapLinesAll (fun _ => 0) (ungroupedAll es)

theorem length_bareAll (es : List (Expr Unit)) : (bareAll es).length = es.length := by
  rw [bareAll, mapLinesAll_eq_map, List.length_map, length_ungroupedAll]

open StackOp (perform performAll)

mutual

/-- The operations of a tree leave the tree on the stack, whatever is there and whatever follows. -/
theorem performAll_stackOps (e : Expr Unit) (ps : List StackOp) (s : List (Expr Unit)) :
    performAll (e.stackOps ++ ps) s = performAll ps (e.bare :: s) := by
  cases e with
  | literal | var | this | super => rfl
  | grouping e => exact performAll_stackOps e ps s
  | unary op _ e | assign x _ e | get e x =>
      rw [stackOps, List.append_assoc, performAll_stackOps e]
      rfl
  | binary op _ a b | logical op _ a b =>
      rw [stackOps, List.append_assoc, List.append_assoc, performAll_stackOps a, performAll_stackOps b]
      rfl
  | set o x e =>
      rw [stackOps, List.append_assoc, List.append_assoc, performAll_stackOps e, performAll_stackOps o]
      rfl
  | call f _ es =>
      have taken : ((bareAll es).reverse ++ s).take es.length = (bareAll es).reverse := by
        rw [← length_bareAll es, ← List.length_reverse, List.take_left]
      have left : ((bareAll es).reverse ++ s).drop es.length = s := by
        rw [← length_bareAll es, ← List.length_reverse, List.drop_left]
      rw [stackOps, List.append_assoc, List.append_assoc, performAll_stackOpsAll es, performAll_stackOps f]
      show performAll ps (.call f.bare 0 (((bareAll es).reverse ++ s).take es.length).reverse ::
        ((bareAll es).reverse ++ s).drop es.length) = _
      rw [taken, left, List.reverse_reverse]
      rfl

theorem performAll_stackOpsAll (es : List (Expr Unit)) (ps : List StackOp) (s : List (Expr Unit)) :
    performAll (stackOpsAll es ++ ps) s = performAll ps ((bareAll es).reverse ++ s) := by
  cases es with
  | nil => rfl
  | cons e es =>
      have first : bareAll (e :: es) = e.bare :: bareAll es := rfl
      rw [stackOpsAll, List.append_assoc, performAll_stackOps e, performAll_stackOpsAll es, first, List.reverse_cons,
        List.append_assoc]
      rfl

end

/-- Trees with the same operations differ in groupings and lines alone. -/
theorem bare_eq_of_stackOps {e e' : Expr Unit} (same : e.stackOps = e'.stackOps) : e.bare = e'.bare := by
  have built := performAll_stackOps e [] []
  have built' := performAll_stackOps e' [] []
  rw [same, built'] at built
  exact (List.cons.inj (Option.some.inj built)).1.symm

mutual

/-- A tree leaves one result. -/
theorem growth_stackOps (e : Expr ρ) : (e.stackOps.map StackOp.growth).sum = 1 := by
  cases e with
  | literal | var | this | super => rfl
  | grouping e => exact growth_stackOps e
  | unary _ _ e | assign _ _ e | get e _ => simp [stackOps, growth_stackOps e, StackOp.growth]
  | binary _ _ a b | logical _ _ a b | set a _ b =>
      simp [stackOps, growth_stackOps a, growth_stackOps b, StackOp.growth]
  | call f _ es =>
      simp only [stackOps, List.map_append, List.sum_append, growth_stackOps f, growth_stackOpsAll es, List.map_cons,
        List.map_nil, List.sum_cons, List.sum_nil, StackOp.growth]
      omega

theorem growth_stackOpsAll (es : List (Expr ρ)) : ((stackOpsAll es).map StackOp.growth).sum = es.length := by
  cases es with
  | nil => rfl
  | cons e es =>
      rw [stackOpsAll, List.map_append, List.sum_append, growth_stackOps e, growth_stackOpsAll es, List.length_cons]
      omega

end

theorem stackOps_ne_nil (e : Expr ρ) : e.stackOps ≠ [] := by
  intro none_left
  have one := growth_stackOps e
  rw [none_left] at one
  cases one

/-! ## The text of the operations -/

def wordsText (ps : List StackOp) : String :=
  " ".intercalate (ps.flatMap StackOp.words)

theorem flatMap_words_ne_nil {ps : List StackOp} (h : ps ≠ []) : ps.flatMap StackOp.words ≠ [] := by
  obtain ⟨p, ps, rfl⟩ := List.exists_cons_of_ne_nil h
  rw [List.flatMap_cons]
  exact List.append_ne_nil_of_left_ne_nil p.words_ne_nil _

theorem wordsText_append {ps qs : List StackOp} (hp : ps ≠ []) (hq : qs ≠ []) :
    wordsText (ps ++ qs) = wordsText ps ++ " " ++ wordsText qs := by
  rw [wordsText, List.flatMap_append]
  exact String.intercalate_append_of_ne_nil (flatMap_words_ne_nil hp) (flatMap_words_ne_nil hq)

theorem wordsText_single {p : StackOp} {w : String} (h : p.words = [w]) : wordsText [p] = w := by
  rw [wordsText, List.flatMap_singleton, h, String.intercalate_singleton]

theorem wordsText_double {p : StackOp} {w v : String} (h : p.words = [w, v]) : wordsText [p] = w ++ " " ++ v := by
  rw [wordsText, List.flatMap_singleton, h, String.intercalate_cons_cons, String.intercalate_singleton]

/-- An operation behind its last operand. -/
theorem wordsText_behind (e : Expr ρ) (p : StackOp) :
    wordsText (e.stackOps ++ [p]) = wordsText e.stackOps ++ " " ++ wordsText [p] :=
  wordsText_append e.stackOps_ne_nil (List.cons_ne_nil _ _)

/-- An operation behind its last two operands. -/
theorem wordsText_behind_two (a b : Expr ρ) (p : StackOp) :
    wordsText (a.stackOps ++ (b.stackOps ++ [p])) =
      wordsText a.stackOps ++ " " ++ (wordsText b.stackOps ++ " " ++ wordsText [p]) := by
  rw [wordsText_append a.stackOps_ne_nil (List.append_ne_nil_of_left_ne_nil b.stackOps_ne_nil _), wordsText_behind]

/-- The last two items may be joined first. -/
theorem intercalate_last_two (ws : List String) (w v : String) :
    " ".intercalate (ws ++ [w, v]) = " ".intercalate (ws ++ [w ++ " " ++ v]) := by
  cases ws with
  | nil => simp only [List.nil_append, String.intercalate_cons_cons, String.intercalate_singleton]
  | cons u ws =>
      have some_left : u :: ws ≠ [] := List.cons_ne_nil u ws
      rw [String.intercalate_append_of_ne_nil some_left (List.cons_ne_nil _ _),
        String.intercalate_append_of_ne_nil some_left (List.cons_ne_nil _ _), String.intercalate_cons_cons,
        String.intercalate_singleton, String.intercalate_singleton]

mutual

/-- The text in reverse Polish notation consists of the words of the operations. -/
theorem toPolish_eq (e : Expr ρ) : e.toPolish = wordsText e.stackOps := by
  have point : " ." = " " ++ "." := rfl
  have equal : " =" = " " ++ "=" := rfl
  cases e with
  | literal | var | this => exact (wordsText_single rfl).symm
  | super _ m _ =>
      have word : "super ." = "super" ++ " " ++ "." := rfl
      rw [toPolish, stackOps, wordsText_double rfl, word, String.append_assoc]
  | grouping e => exact toPolish_eq e
  | unary op _ e => rw [toPolish, stackOps, wordsText_behind, wordsText_single rfl, toPolish_eq e]
  | get e x =>
      rw [toPolish, stackOps, wordsText_behind, wordsText_single rfl, toPolish_eq e, point]
      simp only [String.append_assoc]
  | assign x _ e =>
      rw [toPolish, stackOps, wordsText_behind, wordsText_double rfl, toPolish_eq e, equal]
      simp only [String.append_assoc]
  | binary op _ a b | logical op _ a b =>
      rw [toPolish, stackOps, wordsText_behind_two, wordsText_single rfl, toPolish_eq a, toPolish_eq b]
      simp only [String.append_assoc]
  | set o x e =>
      rw [toPolish, stackOps, wordsText_behind_two, wordsText_double rfl, toPolish_eq e, toPolish_eq o, point, equal]
      simp only [String.append_assoc]
  | call f _ es =>
      have some_left : f.stackOps ++ [StackOp.call es.length] ≠ [] :=
        List.append_ne_nil_of_left_ne_nil f.stackOps_ne_nil _
      rw [toPolish, stackOps, wordsText_behind_all es some_left, wordsText_behind, wordsText_single rfl, toPolish_eq f,
        intercalate_last_two]

/-- Operations behind any number of operands. -/
theorem wordsText_behind_all (es : List (Expr ρ)) {ps : List StackOp} (h : ps ≠ []) :
    wordsText (stackOpsAll es ++ ps) = " ".intercalate (toPolishAll es ++ [wordsText ps]) := by
  cases es with
  | nil => exact String.intercalate_singleton.symm
  | cons e es =>
      have some_left : stackOpsAll es ++ ps ≠ [] := List.append_ne_nil_of_right_ne_nil _ h
      have some_text : toPolishAll es ++ [wordsText ps] ≠ [] :=
        List.append_ne_nil_of_right_ne_nil _ (List.cons_ne_nil _ _)
      rw [stackOpsAll, List.append_assoc, wordsText_append e.stackOps_ne_nil some_left, wordsText_behind_all es h,
        toPolishAll, List.cons_append, String.intercalate_cons_of_ne_nil some_text, toPolish_eq e]

end

end Expr

end LoxScript
