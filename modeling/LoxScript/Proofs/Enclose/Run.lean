import LoxScript.Proofs.Enclose.Scoped
import LoxScript.Proofs.Lockstep.Evaluate

/-!
# A program and the same program in a block run in lockstep

The second machine has one frame more, that of the block, which lies just inside the global one. All other frames
have moved up by one place, and the program's own variables have moved from the global frame to that of the block.
-/

namespace LoxScript

/-- A place that lies `depth` scopes inside the block, where the names `known` have been declared. -/
structure Inside where
  depth : Nat
  known : List String

namespace Inside

def deeper (Γ : Inside) : Inside :=
  { Γ with depth := Γ.depth + 1 }

/-- Those of the names that are in `T` have been declared. -/
def Knows (Γ : Inside) (T xs : List String) : Prop :=
  ∀ x ∈ xs, x ∈ T → x ∈ Γ.known

/-- A reference leads to a variable inside the block, to one that the block has declared, or to one outside. -/
structure Reaches (Γ : Inside) (T : List String) (name : String) (ref : Binding) : Prop where
  depth : ∀ d, ref = .scoped d → d < Γ.depth
  known : ref = .global → name ∈ T → name ∈ Γ.known

/-- What is known once the block itself has declared another name. -/
def declare (Γ : Inside) (name : String) : Inside :=
  if Γ.depth = 0 then { Γ with known := name :: Γ.known } else Γ

variable {Γ : Inside} {T xs ys : List String}

theorem Knows.left (h : Γ.Knows T (xs ++ ys)) : Γ.Knows T xs :=
  fun x hx => h x (List.mem_append_left ys hx)

theorem Knows.right (h : Γ.Knows T (xs ++ ys)) : Γ.Knows T ys :=
  fun x hx => h x (List.mem_append_right xs hx)

theorem depth_declare (Γ : Inside) (name : String) : (Γ.declare name).depth = Γ.depth := by
  unfold declare
  split <;> rfl

theorem mem_known_declare {x name : String} :
    x ∈ (Γ.declare name).known ↔ x ∈ Γ.known ∨ Γ.depth = 0 ∧ x = name := by
  unfold declare
  by_cases top : Γ.depth = 0
  · rw [if_pos top, List.mem_cons, or_comm]
    simp [top]
  · rw [if_neg top]
    simp [top]

end Inside

/-- The frames of the first machine, and names that are bound in its global frame. -/
structure Enclosed where
  size : Nat
  bound : String → Prop

namespace Enclosed

structure Agrees (T : List String) (w : Enclosed) (F F' : Frames) : Prop where
  size : F.size = w.size
  size' : F'.size = w.size + 1
  pos : 0 < w.size
  moved : ∀ id x, id ≠ Heap.globalFrame ∨ x ∈ T → F'.find? (id + 1) x = F.find? id x
  global : ∀ x, x ∉ T → F'.find? Heap.globalFrame x = F.find? Heap.globalFrame x
  bound : ∀ x, w.bound x → (F.find? Heap.globalFrame x).isSome

/-- The frame of the block corresponds to the global frame of the first machine. -/
structure Covers (w : Enclosed) (Γ : Inside) (c c' : Chain) : Prop where
  right : c' = c.map (· + 1) ++ Heap.globalChain
  length : c.length = Γ.depth + 1
  frame : ∀ j id, (c)[j]? = some id → id < w.size ∧ (id = Heap.globalFrame ↔ j = Γ.depth)
  bound : ∀ x ∈ Γ.known, w.bound x

structure Le (w w' : Enclosed) : Prop where
  size : w.size ≤ w'.size
  bound : ∀ x, w.bound x → w'.bound x

theorem Le.refl (w : Enclosed) : w.Le w :=
  ⟨Nat.le_refl _, fun _ h => h⟩

def push (w : Enclosed) : Enclosed :=
  { w with size := w.size + 1 }

theorem le_push (w : Enclosed) : w.Le w.push :=
  ⟨Nat.le_succ _, fun _ h => h⟩

def bind (w : Enclosed) (id : FrameId) (x : String) : Enclosed :=
  { w with bound := fun y => w.bound y ∨ id = Heap.globalFrame ∧ y = x }

theorem le_bind (w : Enclosed) (id : FrameId) (x : String) : w.Le (w.bind id x) :=
  ⟨Nat.le_refl _, fun _ h => .inl h⟩

variable {T : List String} {w : Enclosed} {F F' : Frames} {Γ : Inside} {c c' : Chain}

theorem find?_define_isSome {F : Frames} {id other : FrameId} {x y : String} {slot : Slot}
    (h : (F.find? other y).isSome) : ((F.define id x slot).find? other y).isSome := by
  rw [Frames.find?_define]
  split
  · rfl
  · exact h

/-- A variable is changed in frames that correspond. -/
theorem Agrees.define_moved (h : w.Agrees T F F') {id : FrameId} (hid : id < w.size) {x : String}
    (hx : id ≠ Heap.globalFrame ∨ x ∈ T) (slot : Slot) :
    (w.bind id x).Agrees T (F.define id x slot) (F'.define (id + 1) x slot) where
  size := (Frames.size_define F id x slot).trans h.size
  size' := (Frames.size_define F' (id + 1) x slot).trans h.size'
  pos := h.pos
  moved other y hy := by
    have inside : id + 1 < F'.size := h.size' ▸ Nat.succ_lt_succ hid
    rw [Frames.find?_define, Frames.find?_define, h.size, h.moved other y hy]
    simp [hid, inside]
  global y hy := by
    have zero : Heap.globalFrame ≠ id + 1 := nofun
    have other : ¬ (Heap.globalFrame = id ∧ y = x ∧ id < F.size) := by
      rintro ⟨rfl, rfl, _⟩
      rcases hx with hne | hT
      · exact hne rfl
      · exact hy hT
    rw [Frames.find?_define, Frames.find?_define, if_neg fun h => zero h.1, if_neg other, h.global y hy]
  bound y hy := by
    rcases hy with hy | ⟨rfl, rfl⟩
    · exact find?_define_isSome (h.bound y hy)
    · rw [Frames.find?_define, h.size, if_pos ⟨rfl, rfl, hid⟩]
      rfl

/-- A variable that stays global is changed. -/
theorem Agrees.define_global (h : w.Agrees T F F') {x : String} (hx : x ∉ T) (slot : Slot) :
    w.Agrees T (F.define Heap.globalFrame x slot) (F'.define Heap.globalFrame x slot) where
  size := (Frames.size_define F _ x slot).trans h.size
  size' := (Frames.size_define F' _ x slot).trans h.size'
  pos := h.pos
  moved other y hy := by
    have changed : ¬ (other = Heap.globalFrame ∧ y = x ∧ Heap.globalFrame < F.size) := by
      rintro ⟨rfl, rfl, _⟩
      rcases hy with hne | hT
      · exact hne rfl
      · exact hx hT
    have zero : other + 1 ≠ Heap.globalFrame := nofun
    rw [Frames.find?_define, Frames.find?_define, if_neg changed, if_neg fun h => zero h.1, h.moved other y hy]
  global y hy := by
    have inside : Heap.globalFrame < F.size := h.size ▸ h.pos
    have inside' : Heap.globalFrame < F'.size := by rw [h.size']; exact Nat.succ_pos _
    rw [Frames.find?_define, Frames.find?_define, h.global y hy]
    simp [inside, inside']
  bound y hy := find?_define_isSome (h.bound y hy)

theorem Agrees.push (h : w.Agrees T F F') (frame : Frame) :
    w.push.Agrees T (Array.push F frame) (Array.push F' frame) where
  size := by rw [Array.size_push, h.size]; rfl
  size' := by rw [Array.size_push, h.size']; rfl
  pos := Nat.succ_pos _
  moved id x hx := by
    rw [Frames.find?_push, Frames.find?_push, h.size, h.size', h.moved id x hx]
    simp
  global x hx := by
    have old : Heap.globalFrame ≠ F.size := by rw [h.size]; exact Nat.ne_of_lt h.pos
    have old' : Heap.globalFrame ≠ F'.size := by rw [h.size']; exact nofun
    rw [Frames.find?_push, Frames.find?_push, if_neg old, if_neg old', h.global x hx]
  bound x hx := by
    have old : Heap.globalFrame ≠ F.size := by rw [h.size]; exact Nat.ne_of_lt h.pos
    rw [Frames.find?_push, if_neg old]
    exact h.bound x hx

theorem Covers.mono (h : w.Covers Γ c c') {w' : Enclosed} (hw : w.Le w') : w'.Covers Γ c c' where
  right := h.right
  length := h.length
  frame j id hid := ⟨Nat.lt_of_lt_of_le (h.frame j id hid).1 hw.size, (h.frame j id hid).2⟩
  bound x hx := hw.bound x (h.bound x hx)

theorem Covers.push (h : w.Covers Γ c c') (pos : 0 < w.size) :
    w.push.Covers Γ.deeper (w.size :: c) ((w.size + 1) :: c') where
  right := by rw [h.right]; rfl
  length := congrArg Nat.succ h.length
  frame j id hid := by
    cases j with
    | zero =>
        cases hid
        refine ⟨Nat.lt_succ_self _, ?_⟩
        simp [Nat.ne_of_gt pos, Heap.globalFrame, Inside.deeper]
    | succ j =>
        obtain ⟨hlt, hglobal⟩ := h.frame j id hid
        exact ⟨Nat.lt_succ_of_lt hlt, hglobal.trans (by simp [Inside.deeper])⟩
  bound := h.bound

/-- As many frames out as the first chain has, the second chain has the corresponding frame. -/
theorem Covers.get (h : w.Covers Γ c c') {d : Nat} (hd : d ≤ Γ.depth) :
    ∃ id, (c)[d]? = some id ∧ c'[d]? = some (id + 1) ∧ id < w.size ∧ (id = Heap.globalFrame ↔ d = Γ.depth) := by
  have inside : d < c.length := by
    rw [h.length]
    omega
  have hid : (c)[d]? = some (c)[d] := List.getElem?_eq_getElem inside
  have hid' : c'[d]? = some ((c)[d] + 1) := by
    rw [h.right, List.getElem?_append_left (by simpa using inside), List.getElem?_map, hid]
    rfl
  exact ⟨(c)[d], hid, hid', h.frame d (c)[d] hid⟩

end Enclosed

/-- The correspondence of a program that declares the names `T` with the same program in a block. -/
def enclosed (T : List String) : Lockstep where
  World := Enclosed
  Site := Inside
  le := Enclosed.Le
  frames w F F' := w.Agrees T F F'
  chain w Γ c c' := w.Covers Γ c c'
  expr Γ e e' := e' = e.enclose T Γ.depth ∧ Γ.Knows T e.globals ∧
    ∃ Δ, Δ.scopes.length = Γ.depth ∧ e.Scoped Unlabelled Δ
  stmt Γ s s' Γ₁ := s' = s.enclose T Γ.depth ∧ Γ₁ = s.declared?.elim Γ (fun n => Γ.declare n.text) ∧
    (∀ x ∈ s.globals, x ∈ T → x ∈ Γ.known ∨ Γ.depth = 0 ∧ s.selfName? = some x) ∧
    (Γ.depth = 0 → ∀ n, s.declared? = some n → n.text ∈ T) ∧
    ∃ Δ, Δ.scopes.length = Γ.depth ∧ s.Scoped Unlabelled Δ
  line _ l l' := l' = l
  read Γ p p' := p' = (p.1, p.2.enclose T Γ.depth p.1.text) ∧ Γ.Reaches T p.1.text p.2
  write Γ p p' := p' = (p.1, p.2.enclose T Γ.depth p.1.text) ∧ Γ.Reaches T p.1.text p.2
  superRef Γ r r' := r' = r ∧ ∀ d, r = .scoped d → d < Γ.depth
  declare Γ n n' Γ₁ := n' = n ∧ Γ₁.depth = Γ.depth ∧ (Γ.depth = 0 → n.text ∈ T) ∧
    ∀ x ∈ Γ₁.known, x ∈ Γ.known ∨ Γ.depth = 0 ∧ x = n.text
  enter Γ Γ₁ := Γ₁ = Γ.deeper
  enterFunction Γ ps ps' Γ₁ := Γ₁ = Γ.deeper ∧ ps' = ps
  superSite Γ := Γ.deeper
  thisSite _ Γ := Γ.deeper
  initial Γ := 0 < Γ.depth
  returns _ := True
  failure := Eq
  fault := True

namespace enclosed

variable {T : List String} {w : Enclosed} {F F' : Frames} {Γ Γ₁ : Inside} {c c' : Chain}

/-! ## The pieces of the enclosed code -/

theorem reaches {Δ : Context} (hΔ : Δ.scopes.length = Γ.depth) {name : String} {ref : Binding}
    (bound : ref = .ofScopes name Δ.scopes) (known : ref = .global → name ∈ T → name ∈ Γ.known) :
    Γ.Reaches T name ref := by
  refine ⟨fun d hd => ?_, known⟩
  rw [hd] at bound
  unfold Binding.ofScopes at bound
  cases found : distance? name Δ.scopes with
  | none =>
      rw [found] at bound
      cases bound
  | some e =>
      rw [found] at bound
      cases bound
      exact hΔ ▸ distance?_lt found

theorem enclose_keyword (plain : ∀ x ∈ T, Keyword.ofText? x = none) (k : Nat) (kw : Keyword) (ref : Binding) :
    ref.enclose T k kw.text = ref := by
  have absent : kw.text ∉ T := by
    intro hT
    have identifier := plain _ hT
    rw [Keyword.ofText?_text] at identifier
    cases identifier
  unfold Binding.enclose
  rw [if_neg fun h => absent h.2]

theorem keyword_reaches (plain : ∀ x ∈ T, Keyword.ofText? x = none) {Δ : Context}
    (hΔ : Δ.scopes.length = Γ.depth) {kw : Keyword} {ref : Binding} (bound : ref = .ofScopes kw.text Δ.scopes) :
    Γ.Reaches T kw.text ref := by
  refine reaches hΔ bound fun _ hT => ?_
  have identifier := plain _ hT
  rw [Keyword.ofText?_text] at identifier
  cases identifier

theorem expr_parts (plain : ∀ x ∈ T, Keyword.ofText? x = none) {e e' : Expr Binding}
    (h : (enclosed T).expr Γ e e') : (enclosed T).ExprMatch Γ e e' := by
  obtain ⟨rfl, hx, Δ, hΔ, hs⟩ := h
  have part : ∀ {e : Expr Binding}, e.Scoped Unlabelled Δ → Γ.Knows T e.globals →
      (enclosed T).expr Γ e (e.enclose T Γ.depth) := fun hs hx => ⟨rfl, hx, Δ, hΔ, hs⟩
  cases hs with
  | literal _ => exact .literal
  | grouping _ h => exact .grouping (part h hx)
  | unary _ h => exact .unary rfl (part h hx)
  | binary _ ha hb => exact .binary rfl (part ha hx.left) (part hb hx.right)
  | logical _ ha hb => exact .logical (part ha hx.left) (part hb hx.right)
  | @var n ref _ _ reads =>
      exact .var ⟨rfl, reaches hΔ reads.bound fun hg => hx n.text (Expr.mem_globals_var n hg)⟩
  | @assign n ref v _ _ bound h =>
      exact .assign ⟨rfl, reaches hΔ bound fun hg => hx n.text (Expr.mem_globals_assign n v hg)⟩ (part h hx.right)
  | @call f l es _ hf hes =>
      refine .call rfl (part hf hx.left) ?_
      rw [Expr.encloseAll_eq_map, List.forall₂_map_right_iff]
      exact List.forall₂_same.2 fun e he =>
        part (hes e he) fun x hxe => hx.right x (Expr.mem_globalsAll.2 ⟨e, he, hxe⟩)
  | get _ h => exact .get ⟨rfl, rfl⟩ (part h hx)
  | set _ he hv => exact .set ⟨rfl, rfl⟩ (part he hx.left) (part hv hx.right)
  | @this l ref _ _ bound =>
      refine .this ⟨?_, keyword_reaches plain hΔ bound⟩
      rw [enclose_keyword plain]
  | super _ _ bound => exact .super ⟨rfl, rfl⟩ ⟨rfl, (keyword_reaches plain hΔ bound).depth⟩

/-- Inside functions and blocks nothing becomes known. -/
theorem stmts {Δ : Context} {ss : List (Stmt Binding)} (h : Stmts.Scoped Unlabelled Δ ss)
    (hΔ : Δ.scopes.length = Γ.depth) (inside : 0 < Γ.depth) (hx : Γ.Knows T (Stmt.globalsAll ss)) :
    (enclosed T).Stmts Γ ss (Stmt.encloseAll T Γ.depth ss) := by
  have inner : Γ.depth ≠ 0 := Nat.ne_of_gt inside
  induction ss generalizing Δ with
  | nil => exact .nil
  | cons s ss ih =>
      cases h with
      | cons h hss =>
          have same : Γ = s.declared?.elim Γ (fun n => Γ.declare n.text) := by
            cases s.declared? with
            | none => rfl
            | some n => exact (if_neg inner).symm
          have first : (enclosed T).stmt Γ s (s.enclose T Γ.depth) Γ :=
            ⟨rfl, same, fun x hxs hT => .inl (hx.left x hxs hT), fun top => absurd top inner, Δ, hΔ, h⟩
          exact .cons first (ih hss ((Δ.length_after s).trans hΔ) hx.right)

theorem function {Δ : Context} {kind : FunctionContext} {d : FunctionDecl Binding}
    (h : d.Scoped Unlabelled kind Δ) (hΔ : Δ.scopes.length = Γ.depth) (hx : Γ.Knows T d.globals) :
    (enclosed T).Function Γ d (d.enclose T (Γ.depth + 1)) := by
  cases h with
  | @mk _ _ n ps b hps h =>
      have length : ((Δ.inFunction kind).markAll ps).scopes.length = Γ.deeper.depth :=
        (Context.length_markAll _ ps).trans (congrArg Nat.succ hΔ)
      exact ⟨rfl, Γ.deeper, ⟨rfl, rfl⟩, stmts h length (Nat.succ_pos _) hx⟩

/-- The methods of a class stand in the scopes of its body. -/
theorem methods {Δ : Context} {ms : List (FunctionDecl Binding)} {hasSuperclass : Bool}
    (h : ∀ d ∈ ms, d.Scoped Unlabelled (.ofMethod d) Δ)
    (hΔ : Δ.scopes.length = Binding.classDepth hasSuperclass Γ.depth)
    (hx : Γ.Knows T (FunctionDecl.globalsAll ms)) :
    List.Forall₂ ((enclosed T).Function ((enclosed T).thisSite hasSuperclass ((enclosed T).methodsSite hasSuperclass Γ)))
      ms (FunctionDecl.encloseAll T (Binding.classDepth hasSuperclass Γ.depth + 1) ms) := by
  let body : Inside := { Γ with depth := Binding.classDepth hasSuperclass Γ.depth }
  have site : (enclosed T).thisSite hasSuperclass ((enclosed T).methodsSite hasSuperclass Γ) = body := by
    cases hasSuperclass <;> rfl
  rw [site, FunctionDecl.encloseAll_eq_map, List.forall₂_map_right_iff]
  refine List.forall₂_same.2 fun d hd => ?_
  have known : body.Knows T d.globals := fun x hx' => hx x (FunctionDecl.mem_globalsAll.2 ⟨d, hd, hx'⟩)
  exact function (h d hd) hΔ known

theorem branch {Δ : Context} {s : Stmt Binding} (h : s.Scoped Unlabelled Δ) (hΔ : Δ.scopes.length = Γ.depth)
    (hd : s.declared? = none) (hx : Γ.Knows T s.globals) : (enclosed T).stmt Γ s (s.enclose T Γ.depth) Γ := by
  refine ⟨rfl, ?_, fun x hxs hT => .inl (hx x hxs hT), fun _ n hn => ?_, Δ, hΔ, h⟩
  · rw [hd]
    rfl
  · rw [hd] at hn
    cases hn

theorem expr? {Δ : Context} {e : Option (Expr Binding)} (h : ∀ v ∈ e, v.Scoped Unlabelled Δ)
    (hΔ : Δ.scopes.length = Γ.depth) (hx : Γ.Knows T (Expr.globals? e)) :
    Option.Rel ((enclosed T).expr Γ) e (e.map (Expr.enclose T Γ.depth)) := by
  cases e with
  | none => exact .none
  | some e => exact .some ⟨rfl, hx, Δ, hΔ, h e rfl⟩

theorem declare {n : Name} (h : Γ.depth = 0 → n.text ∈ T) : (enclosed T).declare Γ n n (Γ.declare n.text) :=
  ⟨rfl, Γ.depth_declare n.text, h, fun _ hx => Inside.mem_known_declare.1 hx⟩

theorem superclass {Δ : Context} {n : Name} {c : Option (Name × Binding)} {passed : Bool}
    (h : ∀ p ∈ c, p.1.text ≠ n.text ∧ p.1.IsIdentifier ∧ (Δ.mark n.text passed).Reads p.1 p.2)
    (hΔ : Δ.scopes.length = Γ.depth)
    (hx : ∀ x ∈ Stmt.superclassGlobals c, x ∈ T → x ∈ Γ.known ∨ Γ.depth = 0 ∧ n.text = x) :
    Option.Rel ((enclosed T).read Γ) c (c.map fun p => (p.1, p.2.enclose T Γ.depth p.1.text)) := by
  cases c with
  | none => exact .none
  | some p =>
      obtain ⟨hne, _, reads⟩ := h p rfl
      refine .some ⟨rfl, reaches ((Δ.length_mark n.text passed).trans hΔ) reads.bound fun hg hT => ?_⟩
      rcases hx p.1.text (Stmt.mem_superclassGlobals p.1 hg) hT with known | ⟨_, same⟩
      · exact known
      · exact absurd same.symm hne

theorem stmt_parts {s s' : Stmt Binding} (h : (enclosed T).stmt Γ s s' Γ₁) : (enclosed T).StmtMatch Γ s s' Γ₁ := by
  obtain ⟨rfl, rfl, order, top, Δ, hΔ, hs⟩ := h
  have plainly (hself : s.selfName? = none) : Γ.Knows T s.globals := by
    intro x hx hT
    rcases order x hx hT with known | ⟨_, self⟩
    · exact known
    · rw [hself] at self
      cases self
  -- A function or a class is declared before its body is made.
  have known : ∀ n, s.selfName? = some n → Inside.Knows (Γ.declare n) T s.globals := by
    intro n hself x hx hT
    refine Inside.mem_known_declare.2 ?_
    rcases order x hx hT with known | ⟨htop, self⟩
    · exact .inl known
    · rw [hself] at self
      exact .inr ⟨htop, (Option.some.inj self).symm⟩
  have expr : ∀ {e : Expr Binding}, e.Scoped Unlabelled Δ → Γ.Knows T e.globals →
      (enclosed T).expr Γ e (e.enclose T Γ.depth) := fun hs hx => ⟨rfl, hx, Δ, hΔ, hs⟩
  cases hs with
  | expression _ h => exact .expression (expr h (plainly rfl))
  | print _ h => exact .print (expr h (plainly rfl))
  | @var _ n e _ _ h =>
      have initializer := expr? h ((Δ.length_mark n.text false).trans hΔ) (plainly rfl)
      exact .var (fun _ _ _ hc => hc) initializer (declare fun htop => top htop n rfl)
  | block _ h => exact .block rfl (stmts h (congrArg Nat.succ hΔ) (Nat.succ_pos _) (plainly rfl))
  | @function _ d _ _ h =>
      have length : (Δ.mark d.name.text true).scopes.length = (Γ.declare d.name.text).depth := by
        rw [Δ.length_mark, Γ.depth_declare, hΔ]
      have made := function h length (known d.name.text rfl)
      rw [Γ.depth_declare] at made
      refine .function ?_ made
      rw [d.enclose_name]
      exact declare fun htop => top htop d.name rfl
  | @classDecl _ n c ms _ _ hc hms =>
      refine .classDecl rfl (superclass hc hΔ fun x hx hT => ?_) (declare fun htop => top htop n rfl) ?_
      · rcases order x (List.mem_append_left _ hx) hT with known | ⟨htop, self⟩
        · exact .inl known
        · exact .inr ⟨htop, Option.some.inj self⟩
      · have length : ((Δ.mark n.text true).inClass (.ofDeclaration n c) c.isSome).scopes.length =
            Binding.classDepth c.isSome (Γ.declare n.text).depth := by
          rw [Context.length_inClass, Δ.length_mark, Γ.depth_declare, hΔ]
        have made := methods hms length (known n.text rfl).right
        rw [Γ.depth_declare] at made
        exact made
  | @ite _ c t e _ hc ht h he h' =>
      have knows := plainly rfl
      refine .ite (expr hc knows.left) (branch h hΔ ht knows.right.left) ?_
      cases e with
      | none => exact .none
      | some e => exact .some (branch (h' e rfl) hΔ (he e rfl) knows.right.right)
  | ret _ _ _ h => exact .ret trivial (expr? h hΔ (plainly rfl))
  | loop _ hc hb h => exact .loop (expr hc (plainly rfl).left) (branch h hΔ hb (plainly rfl).right)

/-- The statements of the program itself, after the declarations of the names `D`. -/
theorem program {ss : List (Stmt Binding)} {D : List String} (h : Stmts.Scoped Unlabelled .top ss)
    (order : Stmt.InOrder T D ss) (hT : ∀ x ∈ Stmt.declarations ss, x ∈ T) :
    (enclosed T).Stmts (⟨0, D⟩ : Inside) ss (Stmt.encloseAll T 0 ss) := by
  induction ss generalizing D with
  | nil => exact .nil
  | cons s ss ih =>
      cases h with
      | cons h hss =>
          obtain ⟨here, later⟩ := order
          have top : Context.top.after s = .top := by
            unfold Context.after
            cases s.declared? <;> rfl
          have first : (enclosed T).stmt (⟨0, D⟩ : Inside) s (s.enclose T 0)
              (⟨0, (s.declared?.map Name.text).toList ++ D⟩ : Inside) := by
            refine ⟨rfl, ?_, fun x hx hmem => ?_, fun _ n hn => hT n.text ?_, .top, rfl, h⟩
            · cases s.declared? <;> rfl
            · exact (here x hx hmem).imp_right fun self => ⟨rfl, self⟩
            · simp [Stmt.declarations, hn]
          rw [top] at hss
          refine .cons first (ih hss later fun x hx => hT x ?_)
          exact (List.sublist_cons_self s ss).filterMap _ |>.subset hx

/-! ## The laws -/

theorem sameAccess_refl {α : Type} (x : Except AccessError α) : (enclosed T).SameAccess Eq x x := by
  cases x with
  | ok a => exact .ok rfl
  | error e =>
      cases e with
      | undefined _ | uninitialized _ => exact .error (.error rfl)
      | unbound _ | beyond _ => exact .error (.fault trivial)

/-- A reference leads to frames that correspond, unless its variable is outside the block. -/
theorem reach_cases (hF : w.Agrees T F F') (hc : w.Covers Γ c c') {name : String} {ref : Binding}
    (h : Γ.Reaches T name ref) :
    (ref = .global ∧ ref.enclose T Γ.depth name = .global ∧ name ∉ T) ∨
      ∃ d id, ref.enclose T Γ.depth name = .scoped d ∧ c'[d]? = some (id + 1) ∧ id < w.size ∧
        F'.find? (id + 1) name = F.find? id name ∧ (id ≠ Heap.globalFrame ∨ name ∈ T) ∧
        (ref = .scoped d ∧ (c)[d]? = some id ∨
          ref = .global ∧ id = Heap.globalFrame ∧ (F.find? id name).isSome) := by
  unfold Binding.enclose
  cases ref with
  | «scoped» d =>
      have hd := h.depth d rfl
      obtain ⟨id, hid, hid', hlt, hglobal⟩ := hc.get (Nat.le_of_lt hd)
      have inner : id ≠ Heap.globalFrame := fun same => Nat.ne_of_lt hd (hglobal.1 same)
      exact .inr ⟨d, id, by simp, hid', hlt, hF.moved id name (.inl inner), .inl inner, .inl ⟨rfl, hid⟩⟩
  | global =>
      by_cases hT : name ∈ T
      · obtain ⟨id, _, hid', hlt, hglobal⟩ := hc.get (Nat.le_refl Γ.depth)
        have same : id = Heap.globalFrame := hglobal.2 rfl
        have bound := hF.bound name (hc.bound name (h.known rfl hT))
        exact .inr ⟨Γ.depth, id, by simp [hT], hid', hlt, hF.moved id name (.inr hT), .inr hT,
          .inr ⟨rfl, same, same ▸ bound⟩⟩
      · exact .inl ⟨rfl, by simp [hT], hT⟩

theorem lookUp (hF : w.Agrees T F F') (hc : w.Covers Γ c c') {n : Name} {ref : Binding}
    (h : Γ.Reaches T n.text ref) :
    (enclosed T).SameAccess Eq (F.lookUp c n ref) (F'.lookUp c' n (ref.enclose T Γ.depth n.text)) := by
  have same : F.lookUp c n ref = F'.lookUp c' n (ref.enclose T Γ.depth n.text) := by
    rcases reach_cases hF hc h with ⟨rfl, he, hT⟩ | ⟨d, id, he, hid', _, hfind, _, ⟨rfl, hid⟩ | ⟨rfl, rfl, hsome⟩⟩
    · rw [he]
      unfold Frames.lookUp
      dsimp only
      rw [Frames.get_globalChain, Frames.get_globalChain, hF.global n.text hT]
    · have reached : F.slotAt c d n.text = F'.slotAt c' d n.text :=
        Frames.slotAt_congr (by simpa using hid) (by simpa using hid') hfind.symm
      rw [he]
      unfold Frames.lookUp Frames.getAt
      dsimp only
      rw [reached]
    · obtain ⟨slot, found⟩ := Option.isSome_iff_exists.1 hsome
      have reached : F'.slotAt c' d n.text = .ok slot :=
        Frames.slotAt_of_find? (by simpa using hid') (hfind.trans found)
      rw [he]
      unfold Frames.lookUp Frames.getAt
      dsimp only
      rw [Frames.get_globalChain, found, reached]
      rfl
  rw [same]
  exact sameAccess_refl _

theorem target (hF : w.Agrees T F F') (hc : w.Covers Γ c c') {n : Name} {ref : Binding}
    (h : Γ.Reaches T n.text ref) :
    (enclosed T).SameAccess
      (fun id id' => ∀ v, ∃ w', Enclosed.Le w w' ∧
        w'.Agrees T (F.define id n.text (.value v)) (F'.define id' n.text (.value v)))
      (F.target c n ref) (F'.target c' n (ref.enclose T Γ.depth n.text)) := by
  rcases reach_cases hF hc h with ⟨rfl, he, hT⟩ | ⟨d, id, he, hid', hlt, _, hmoved, ⟨rfl, hid⟩ | ⟨rfl, rfl, hsome⟩⟩
  · rw [he]
    unfold Frames.target
    dsimp only
    rw [Frames.holder_globalChain, Frames.holder_globalChain, hF.global n.text hT]
    split
    · exact .ok fun v => ⟨w, .refl w, hF.define_global hT _⟩
    · exact .error (.error rfl)
  · rw [he]
    unfold Frames.target Frames.ancestor
    simp only [Int.toNat_natCast, hid, hid']
    exact .ok fun v => ⟨_, w.le_bind id n.text, hF.define_moved hlt hmoved _⟩
  · rw [he]
    unfold Frames.target Frames.ancestor
    simp only [Int.toNat_natCast, hid', Frames.holder_globalChain, hsome, if_true]
    exact .ok fun v => ⟨_, w.le_bind _ n.text, hF.define_moved hlt hmoved _⟩

/-- The machine's own variables are not in the global frame. -/
theorem own? (hF : w.Agrees T F F') (hc : w.Covers Γ c c') {d : Int} (hd : d.toNat < Γ.depth) (name : String) :
    F.own? c d name = F'.own? c' d name := by
  obtain ⟨id, hid, hid', _, hglobal⟩ := hc.get (Nat.le_of_lt hd)
  have inner : id ≠ Heap.globalFrame := fun same => Nat.ne_of_lt hd (hglobal.1 same)
  unfold Frames.own?
  rw [Frames.slotAt_congr hid hid' (hF.moved id name (.inl inner)).symm]

theorem declare_chain {id id' : FrameId} (hF : w.Agrees T F F') (hc : w.Covers Γ (id :: c) (id' :: c')) {n : Name}
    (slot : Slot) (hT : Γ.depth = 0 → n.text ∈ T) (hdepth : Γ₁.depth = Γ.depth)
    (hknown : ∀ x ∈ Γ₁.known, x ∈ Γ.known ∨ Γ.depth = 0 ∧ x = n.text) :
    ∃ w', Enclosed.Le w w' ∧ w'.Agrees T (F.define id n.text slot) (F'.define id' n.text slot) ∧
      w'.Covers Γ₁ (id :: c) (id' :: c') := by
  obtain ⟨hlt, hglobal⟩ := hc.frame 0 id rfl
  have moved : id' = id + 1 := (List.cons.inj hc.right).1
  have either : id ≠ Heap.globalFrame ∨ n.text ∈ T := by
    by_cases top : Γ.depth = 0
    · exact .inr (hT top)
    · exact .inl fun same => top (hglobal.1 same).symm
  refine ⟨_, w.le_bind id n.text, moved ▸ hF.define_moved hlt either slot, ?_⟩
  have later := hc.mono (w.le_bind id n.text)
  exact
    { right := later.right
      length := hdepth ▸ later.length
      frame := hdepth ▸ later.frame
      bound := fun x hx => by
        rcases hknown x hx with known | ⟨top, rfl⟩
        · exact later.bound x known
        · exact .inr ⟨hglobal.2 top.symm, rfl⟩ }

theorem enter (hF : w.Agrees T F F') (hc : w.Covers Γ c c') (frame : Frame) :
    ∃ w' : Enclosed, w.Le w' ∧ w'.Agrees T (Array.push F frame) (Array.push F' frame) ∧
      w'.Covers Γ.deeper (F.size :: c) (F'.size :: c') := by
  refine ⟨_, w.le_push, hF.push frame, ?_⟩
  rw [hF.size, hF.size']
  exact hc.push hF.pos

theorem lawful (plain : ∀ x ∈ T, Keyword.ofText? x = none) : (enclosed T).Lawful where
  le_refl w := .refl w
  le_trans h h' := ⟨Nat.le_trans h.size h'.size, fun x hx => h'.bound x (h.bound x hx)⟩
  chain_mono hw hc := hc.mono hw
  chain_head := by
    rintro w Γ F F' c c' hF hc
    cases c with
    | nil => cases hc.length
    | cons id outer =>
        have hlt := (hc.frame 0 id rfl).1
        exact ⟨id, outer, id + 1, _, rfl, hc.right, hF.size ▸ hlt, hF.size' ▸ Nat.succ_lt_succ hlt⟩
  failure_line := by
    rintro Γ l l' cause lexeme rfl
    rfl
  failure_read := by
    rintro Γ n r n' r' cause ⟨same, _⟩
    cases same
    rfl
  lookUp := by
    rintro w Γ F F' c c' n r n' r' hF hc ⟨same, h⟩
    cases same
    exact lookUp hF hc h
  target := by
    rintro w Γ F F' c c' n r n' r' hF hc ⟨same, h⟩
    cases same
    exact target hF hc h
  declare := by
    rintro w Γ Γ₁ F F' id id' c c' n n' slot hF hc ⟨rfl, hdepth, hT, hknown⟩
    exact declare_chain hF hc slot hT hdepth hknown
  declare_again := by
    rintro Γ n n' Γ₁ ⟨rfl, hdepth, hT, _⟩
    exact ⟨rfl, rfl, fun top => hT (hdepth ▸ top), fun x hx => .inl hx⟩
  enter := by
    rintro w Γ Γ₁ F F' c c' hF hc rfl
    exact enter hF hc .empty
  enterFunction := by
    rintro w Γ Γ₁ F F' c c' ps ps' vs hF hc ⟨rfl, rfl⟩ _
    exact enter hF hc _
  parameters_length := by
    rintro Γ ps ps' Γ₁ ⟨_, rfl⟩
    rfl
  enterSuper _ hF hc := enter hF hc _
  enterThis _ _ hF hc := enter hF hc _
  initial_this _ _ := Nat.succ_pos _
  ownThis hF hc hi := ⟨own? hF hc (d := 0) hi _, .inl trivial⟩
  superRef_cases := by
    rintro Γ r r' ⟨rfl, _⟩
    cases r' with
    | global => exact .inl ⟨rfl, rfl, trivial⟩
    | «scoped» d => exact .inr ⟨d, d, rfl, rfl⟩
  ownSuper := by
    rintro w Γ F F' c c' d d' hF hc ⟨same, hd⟩
    cases same
    have depth := hd d rfl
    exact ⟨⟨own? hF hc (by omega) _, .inl trivial⟩, ⟨own? hF hc (by omega) _, .inl trivial⟩⟩
  returns_enter _ _ := trivial
  returns_declare _ _ := trivial
  expr_parts := expr_parts plain
  stmt_parts := stmt_parts

end enclosed

end LoxScript
