import LoxScript.Proofs.Lockstep.Evaluate
import LoxScript.Proofs.Loop.Without

/-!
# Code inside and outside of an empty scope runs in lockstep

The second machine may have frames that the first one lacks, in which nothing is ever declared. Every other frame
has a place among its frames. A chain of the second machine passes at most one of the new frames; code that runs
there has the corresponding scope, and the code of the first machine is without it.
-/

namespace LoxScript

/-! ## Frames -/

/-- How many frames there are, and the places of the first machine's frames among those of the second. -/
structure Padding where
  size : Nat
  size' : Nat
  place : FrameId → FrameId

namespace Padding

structure Le (w w' : Padding) : Prop where
  size : w.size ≤ w'.size
  size' : w.size' ≤ w'.size'
  place : ∀ id, id < w.size → w'.place id = w.place id

theorem Le.refl (w : Padding) : w.Le w :=
  ⟨Nat.le_refl _, Nat.le_refl _, fun _ _ => rfl⟩

theorem Le.trans {w w' w'' : Padding} (h : w.Le w') (h' : w'.Le w'') : w.Le w'' :=
  ⟨Nat.le_trans h.size h'.size, Nat.le_trans h.size' h'.size',
    fun id hid => (h'.place id (Nat.lt_of_lt_of_le hid h.size)).trans (h.place id hid)⟩

structure Agrees (w : Padding) (F F' : Frames) : Prop where
  size : F.size = w.size
  size' : F'.size = w.size'
  pos : 0 < w.size
  global : w.place Heap.globalFrame = Heap.globalFrame
  bound : ∀ id, id < w.size → w.place id < w.size'
  distinct : ∀ id other, id < w.size → other < w.size → w.place id = w.place other → id = other
  same : ∀ id, id < w.size → ∀ x, F'.find? (w.place id) x = F.find? id x

def push (w : Padding) : Padding where
  size := w.size + 1
  size' := w.size' + 1
  place id := if id = w.size then w.size' else w.place id

def pushRight (w : Padding) : Padding :=
  { w with size' := w.size' + 1 }

theorem place_push_of_lt (w : Padding) {id : FrameId} (h : id < w.size) : w.push.place id = w.place id :=
  if_neg (Nat.ne_of_lt h)

theorem place_push_size (w : Padding) : w.push.place w.size = w.size' :=
  if_pos rfl

theorem le_push (w : Padding) : w.Le w.push :=
  ⟨Nat.le_succ _, Nat.le_succ _, fun _ hid => w.place_push_of_lt hid⟩

theorem le_pushRight (w : Padding) : w.Le w.pushRight :=
  ⟨Nat.le_refl _, Nat.le_succ _, fun _ _ => rfl⟩

def alone (size : Nat) : Padding :=
  ⟨size, size, id⟩

theorem agrees_alone {F : Frames} (h : 0 < F.size) : (alone F.size).Agrees F F where
  size := rfl
  size' := rfl
  pos := h
  global := rfl
  bound _ hid := hid
  distinct _ _ _ _ same := same
  same _ _ _ := rfl

variable {w : Padding} {F F' : Frames}

theorem Agrees.define (h : w.Agrees F F') {id : FrameId} (hid : id < w.size) (x : String) (slot : Slot) :
    w.Agrees (F.define id x slot) (F'.define (w.place id) x slot) where
  size := (Frames.size_define F id x slot).trans h.size
  size' := (Frames.size_define F' (w.place id) x slot).trans h.size'
  pos := h.pos
  global := h.global
  bound := h.bound
  distinct := h.distinct
  same other hother y := by
    have place : w.place other = w.place id ↔ other = id :=
      ⟨h.distinct other id hother hid, congrArg w.place⟩
    rw [Frames.find?_define, Frames.find?_define, h.same other hother y, h.size, h.size']
    simp only [place, hid, h.bound id hid]

theorem Agrees.push (h : w.Agrees F F') (frame : Frame) : w.push.Agrees (Array.push F frame) (Array.push F' frame) where
  size := by rw [Array.size_push, h.size]; rfl
  size' := by rw [Array.size_push, h.size']; rfl
  pos := Nat.succ_pos _
  global := (w.place_push_of_lt h.pos).trans h.global
  bound id hid := by
    rcases Nat.lt_or_eq_of_le (Nat.le_of_lt_succ hid) with old | rfl
    · rw [w.place_push_of_lt old]
      exact Nat.lt_succ_of_lt (h.bound id old)
    · rw [w.place_push_size]
      exact Nat.lt_succ_self _
  distinct id other hid hother same := by
    rcases Nat.lt_or_eq_of_le (Nat.le_of_lt_succ hid) with old | rfl <;>
      rcases Nat.lt_or_eq_of_le (Nat.le_of_lt_succ hother) with old' | rfl
    · rw [w.place_push_of_lt old, w.place_push_of_lt old'] at same
      exact h.distinct id other old old' same
    · rw [w.place_push_of_lt old, w.place_push_size] at same
      exact absurd same (Nat.ne_of_lt (h.bound id old))
    · rw [w.place_push_size, w.place_push_of_lt old'] at same
      exact absurd same.symm (Nat.ne_of_lt (h.bound other old'))
    · rfl
  same id hid x := by
    rw [Frames.find?_push, Frames.find?_push, h.size, h.size']
    rcases Nat.lt_or_eq_of_le (Nat.le_of_lt_succ hid) with old | rfl
    · rw [w.place_push_of_lt old, if_neg (Nat.ne_of_lt (h.bound id old)), if_neg (Nat.ne_of_lt old), h.same id old x]
    · rw [w.place_push_size, if_pos rfl, if_pos rfl]

theorem Agrees.pushRight (h : w.Agrees F F') (frame : Frame) : w.pushRight.Agrees F (Array.push F' frame) where
  size := h.size
  size' := by rw [Array.size_push, h.size']; rfl
  pos := h.pos
  global := h.global
  bound id hid := Nat.lt_succ_of_lt (h.bound id hid)
  distinct := h.distinct
  same id hid x := by
    have old : w.pushRight.place id ≠ F'.size := h.size' ▸ Nat.ne_of_lt (h.bound id hid)
    rw [Frames.find?_push, if_neg old]
    exact h.same id hid x

end Padding

/-! ## Places in the code -/

/-- Where the second machine's code stands: where the first one's does, or inside an empty scope that is `k` scopes
further out. -/
inductive PaddedSite where
  | same
  | padded (k : Nat)

namespace PaddedSite

def deeper : PaddedSite → PaddedSite
  | same => same
  | padded k => padded (k + 1)

def Inner (Γ : PaddedSite) : Prop :=
  Γ ≠ padded 0

theorem inner_deeper (Γ : PaddedSite) : Γ.deeper.Inner := by
  cases Γ <;> exact nofun

def chain (Γ : PaddedSite) (pad : FrameId) (c : Chain) : Chain :=
  match Γ with
  | same => c
  | padded k => c.insertIdx k pad

theorem chain_deeper (Γ : PaddedSite) (pad id : FrameId) (c : Chain) :
    Γ.deeper.chain pad (id :: c) = id :: Γ.chain pad c := by
  cases Γ with
  | same => rfl
  | padded k => exact List.insertIdx_succ_cons

/-- A reference of the first machine's code and the one of the second machine's code, which does not lead to the
empty scope. -/
def Refers : PaddedSite → Binding → Binding → Prop
  | same, r, r' => r = r'
  | padded k, r, r' => r = r'.without k ∧ r' ≠ .scoped k

/-- References that are tied to scopes. -/
theorem Refers.cases {Γ : PaddedSite} {r r' : Binding} (h : Γ.Refers r r') :
    (r = .global ∧ r' = .global) ∨ ∃ d d', r = .scoped d ∧ r' = .scoped d' := by
  cases Γ with
  | same =>
      cases h
      cases r with
      | global => exact .inl ⟨rfl, rfl⟩
      | «scoped» d => exact .inr ⟨d, d, rfl, rfl⟩
  | padded k =>
      obtain ⟨rfl, _⟩ := h
      cases r' with
      | global => exact .inl ⟨rfl, rfl⟩
      | «scoped» d => exact .inr ⟨_, d, rfl, rfl⟩

/-- They lead to the same place in both chains. -/
theorem Refers.getElem? {Γ : PaddedSite} {d d' : Nat} (h : Γ.Refers (.scoped d) (.scoped d')) (pad : FrameId)
    (c : Chain) : (Γ.chain pad c)[d']? = (c)[d]? := by
  cases Γ with
  | same =>
      cases h
      rfl
  | padded k =>
      obtain ⟨same, other⟩ := h
      have apart : d' ≠ k := fun h => other (congrArg Binding.scoped h)
      cases same
      show (c.insertIdx k pad)[d']? = _
      rw [List.getElem?_insertIdx]
      rcases Nat.lt_or_gt_of_ne apart with before | behind
      · rw [if_pos before, if_neg (by omega)]
      · rw [if_neg (by omega), if_neg apart, if_pos behind]

end PaddedSite

/-- The chain of the second machine has the frames of the first machine's chain in their places, and perhaps one
frame more. -/
structure Padding.Chains (w : Padding) (Γ : PaddedSite) (c c' : Chain) : Prop where
  known : ∀ id ∈ c, id < w.size
  ne_nil : c ≠ []
  right : ∃ pad, pad < w.size' ∧ c' = Γ.chain pad (c.map w.place)

namespace Padding.Chains

variable {w w' : Padding} {Γ : PaddedSite} {c c' : Chain}

theorem mono (h : w.Chains Γ c c') (hw : w.Le w') : w'.Chains Γ c c' := by
  obtain ⟨pad, hpad, rfl⟩ := h.right
  refine ⟨fun id hid => Nat.lt_of_lt_of_le (h.known id hid) hw.size, h.ne_nil, pad,
    Nat.lt_of_lt_of_le hpad hw.size', ?_⟩
  have places : c.map w'.place = c.map w.place := List.map_congr_left fun id hid => hw.place id (h.known id hid)
  rw [places]

theorem push (h : w.Chains Γ c c') : w.push.Chains Γ.deeper (w.size :: c) (w.size' :: c') := by
  obtain ⟨pad, hpad, right⟩ := (h.mono w.le_push).right
  refine ⟨fun id hid => ?_, List.cons_ne_nil _ _, pad, hpad, ?_⟩
  · rcases List.mem_cons.1 hid with rfl | hid
    · exact Nat.lt_succ_self _
    · exact Nat.lt_succ_of_lt (h.known id hid)
  · rw [List.map_cons, place_push_size, PaddedSite.chain_deeper, ← right]

/-- The second machine alone enters a scope. -/
theorem pushRight (h : w.Chains .same c c') : w.pushRight.Chains (.padded 0) c (w.size' :: c') := by
  obtain ⟨pad, _, rfl⟩ := h.right
  exact ⟨h.known, h.ne_nil, w.size', Nat.lt_succ_self _, rfl⟩

/-- References that correspond lead to frames that do. -/
theorem get (h : w.Chains Γ c c') {d d' : Nat} (href : Γ.Refers (.scoped d) (.scoped d')) :
    (∃ id, (c)[d]? = some id ∧ c'[d']? = some (w.place id) ∧ id < w.size) ∨ (c)[d]? = none ∧ c'[d']? = none := by
  obtain ⟨pad, _, rfl⟩ := h.right
  rw [href.getElem?, List.getElem?_map]
  cases hid : (c)[d]? with
  | none => exact .inr ⟨rfl, rfl⟩
  | some id => exact .inl ⟨id, rfl, rfl, h.known id (List.mem_of_getElem? hid)⟩

/-- The innermost frames correspond, unless that of the second machine belongs to the empty scope. -/
theorem head {id id' : FrameId} (h : w.Chains Γ (id :: c) (id' :: c')) (inner : Γ.Inner) : id' = w.place id := by
  obtain ⟨pad, _, right⟩ := h.right
  cases Γ with
  | same => exact (List.cons.inj right).1
  | padded k =>
      cases k with
      | zero => exact absurd rfl inner
      | succ k =>
          have inserted : id' :: c' = w.place id :: (c.map w.place).insertIdx k pad :=
            right.trans List.insertIdx_succ_cons
          exact (List.cons.inj inserted).1

end Padding.Chains

/-! ## The correspondence -/

/-- The correspondence of code inside an empty scope with the same code without it. -/
def padded : Lockstep where
  World := Padding
  Site := PaddedSite
  le := Padding.Le
  frames w F F' := w.Agrees F F'
  chain w Γ c c' := w.Chains Γ c c'
  expr Γ e e' :=
    match Γ with
    | .same => e = e'
    | .padded k => e = e'.without k ∧ ∃ Δ : Context, Δ.Blank k ∧ Δ.Ready ∧ e'.Scoped Unlabelled Δ
  stmt Γ s s' Γ₁ :=
    match Γ with
    | .same => s = s' ∧ Γ₁ = .same
    | .padded k => s = s'.without k ∧ Γ₁ = .padded k ∧ (k = 0 → s'.declared? = none) ∧
        ∃ Δ : Context, Δ.Blank k ∧ Δ.Settled ∧ s'.Scoped Unlabelled Δ
  line _ l l' := l = l'
  read Γ p p' := p.1 = p'.1 ∧ Γ.Refers p.2 p'.2
  write Γ p p' := p.1 = p'.1 ∧ Γ.Refers p.2 p'.2
  superRef Γ r r' := Γ.Refers r r' ∧ ∀ d d', r = .scoped d → r' = .scoped d' →
    Γ.Refers (.scoped (d - 1)) (.scoped (d' - 1))
  declare Γ n n' Γ₁ := n = n' ∧ Γ₁ = Γ ∧ Γ.Inner
  enter Γ Γ₁ := Γ₁ = Γ.deeper
  enterFunction Γ ps ps' Γ₁ := ps = ps' ∧ Γ₁ = Γ.deeper
  superSite Γ := Γ.deeper
  thisSite _ Γ := Γ.deeper
  initial Γ := Γ.Inner
  returns _ := True
  failure := Eq
  fault := True

namespace padded

variable {w : Padding} {F F' : Frames} {Γ Γ₁ : PaddedSite} {c c' : Chain}

/-! ## The pieces of equal code -/

theorem expr_parts_same (e : Expr Binding) : padded.ExprMatch .same e e := by
  have parts : ∀ es : List (Expr Binding), List.Forall₂ (padded.expr .same) es es :=
    fun es => List.forall₂_same.2 fun _ _ => rfl
  cases e with
  | literal => exact .literal
  | grouping => exact .grouping rfl
  | unary => exact .unary rfl rfl
  | binary => exact .binary rfl rfl rfl
  | logical => exact .logical rfl rfl
  | var => exact .var ⟨rfl, rfl⟩
  | assign => exact .assign ⟨rfl, rfl⟩ rfl
  | call _ _ es => exact .call rfl rfl (parts es)
  | get => exact .get ⟨rfl, rfl⟩ rfl
  | set => exact .set ⟨rfl, rfl⟩ rfl rfl
  | this => exact .this ⟨rfl, rfl⟩
  | super =>
      refine .super ⟨rfl, rfl⟩ ⟨rfl, fun d d' hd hd' => ?_⟩
      cases hd.symm.trans hd'
      rfl

theorem stmts_same (ss : List (Stmt Binding)) : padded.Stmts .same ss ss := by
  induction ss with
  | nil => exact .nil
  | cons s ss ih => exact .cons ⟨rfl, rfl⟩ ih

theorem function_same (d : FunctionDecl Binding) : padded.Function .same d d :=
  ⟨rfl, .same, ⟨rfl, rfl⟩, stmts_same d.body⟩

theorem stmt_parts_same (s : Stmt Binding) : padded.StmtMatch .same s s .same := by
  have expr? : ∀ e : Option (Expr Binding), Option.Rel (padded.expr .same) e e :=
    fun e => agreement.relOption_self fun _ _ => rfl
  have inner : PaddedSite.same.Inner := nofun
  cases s with
  | expression => exact .expression rfl
  | print => exact .print rfl
  | var _ e => exact .var (fun _ _ _ h => h) (expr? e) ⟨rfl, rfl, inner⟩
  | block b => exact .block rfl (stmts_same b)
  | function d => exact .function ⟨rfl, rfl, inner⟩ (function_same d)
  | classDecl n c ms =>
      refine .classDecl rfl (agreement.relOption_self fun _ _ => ⟨rfl, rfl⟩) ⟨rfl, rfl, inner⟩ ?_
      cases c <;> exact List.forall₂_same.2 fun d _ => function_same d
  | ite => exact .ite rfl ⟨rfl, rfl⟩ (agreement.relOption_self fun _ _ => ⟨rfl, rfl⟩)
  | ret _ e => exact .ret trivial (expr? e)
  | loop => exact .loop rfl ⟨rfl, rfl⟩

/-! ## The pieces of code inside an empty scope -/

variable {Δ : Context} {k : Nat}

theorem refers (blank : Δ.Blank k) (name : String) :
    (PaddedSite.padded k).Refers ((Binding.ofScopes name Δ.scopes).without k) (.ofScopes name Δ.scopes) :=
  ⟨rfl, blank.ofScopes_ne name⟩

theorem expr_parts_padded {e : Expr Binding} (h : e.Scoped Unlabelled Δ) (blank : Δ.Blank k) (ready : Δ.Ready) :
    padded.ExprMatch (.padded k) (e.without k) e := by
  have part : ∀ {e : Expr Binding}, e.Scoped Unlabelled Δ → padded.expr (.padded k) (e.without k) e :=
    fun h => ⟨rfl, Δ, blank, ready, h⟩
  cases h with
  | literal => exact .literal
  | grouping _ h => exact .grouping (part h)
  | unary _ h => exact .unary rfl (part h)
  | binary _ ha hb => exact .binary rfl (part ha) (part hb)
  | logical _ ha hb => exact .logical (part ha) (part hb)
  | var _ _ reads =>
      obtain ⟨_, rfl⟩ := reads
      exact .var ⟨rfl, refers blank _⟩
  | assign _ _ bound h =>
      subst bound
      exact .assign ⟨rfl, refers blank _⟩ (part h)
  | call _ hf hes =>
      refine .call rfl (part hf) ?_
      rw [Expr.withoutAll_eq_map, List.forall₂_map_left_iff]
      exact List.forall₂_same.2 fun e he => part (hes e he)
  | get _ h => exact .get ⟨rfl, rfl⟩ (part h)
  | set _ he hv => exact .set ⟨rfl, rfl⟩ (part he) (part hv)
  | this _ _ bound =>
      subst bound
      exact .this ⟨rfl, refers blank _⟩
  | super _ hc bound =>
      obtain ⟨d, hd, hthis, _⟩ := ready.shaped.super hc
      have away := blank.ofScopes_ne Keyword.superWord.text
      rw [bound]
      refine .super ⟨rfl, rfl⟩ ⟨refers blank _, fun e e' he he' => ?_⟩
      rw [hd] at he he' away
      cases he'
      cases he
      -- The empty scope is neither that of `super` nor that of `this`, which lies just inside it.
      have apart : d ≠ k := by
        rintro rfl
        have same : some thisScope = some .empty := hthis.symm.trans blank
        exact absurd (congrArg (Option.map fun scope => scope.contains Keyword.thisWord.text) same) (by decide)
      have apart' : d + 1 ≠ k := fun h => away (congrArg Binding.scoped h)
      refine ⟨congrArg Binding.scoped ?_, fun h => apart (Binding.scoped.inj h)⟩
      split <;> split <;> omega

theorem expr?_padded {e : Option (Expr Binding)} (h : ∀ v ∈ e, v.Scoped Unlabelled Δ) (blank : Δ.Blank k)
    (ready : Δ.Ready) : Option.Rel (padded.expr (.padded k)) (e.map (Expr.without k)) e := by
  cases e with
  | none => exact .none
  | some e => exact .some ⟨rfl, Δ, blank, ready, h e rfl⟩

theorem stmts_padded {ss : List (Stmt Binding)} (h : Stmts.Scoped Unlabelled Δ ss) (blank : Δ.Blank k)
    (settled : Δ.Settled) (hk : k ≠ 0) : padded.Stmts (.padded k) (Stmt.withoutAll k ss) ss := by
  induction ss generalizing Δ with
  | nil => exact .nil
  | cons s ss ih =>
      cases h with
      | cons h hss =>
          have first : padded.stmt (.padded k) (s.without k) s (.padded k) :=
            ⟨rfl, rfl, fun top => absurd top hk, Δ, blank, settled, h⟩
          exact .cons first (ih hss (blank.after hk s) (agreement.settled_after h settled))

theorem function_padded {kind : FunctionContext} {d : FunctionDecl Binding} (h : d.Scoped Unlabelled kind Δ)
    (blank : Δ.Blank k) (settled : (Δ.inFunction kind).Settled) :
    padded.Function (.padded k) (d.without (k + 1)) d := by
  cases h with
  | @mk _ _ n ps b hps h =>
      have inside : (Δ.inFunction kind).Blank (k + 1) := blank
      have inner : k + 1 ≠ 0 := Nat.succ_ne_zero k
      exact ⟨rfl, .padded (k + 1), ⟨rfl, rfl⟩,
        stmts_padded h (inside.markAll inner ps) (settled.markAll hps.identifier) inner⟩

theorem stmt_parts_padded {s : Stmt Binding} (h : s.Scoped Unlabelled Δ) (blank : Δ.Blank k) (settled : Δ.Settled)
    (hk : k = 0 → s.declared? = none) : padded.StmtMatch (.padded k) (s.without k) s (.padded k) := by
  have expr : ∀ {e : Expr Binding}, e.Scoped Unlabelled Δ → padded.expr (.padded k) (e.without k) e :=
    fun h => ⟨rfl, Δ, blank, settled.ready, h⟩
  have branch : ∀ {s : Stmt Binding}, s.Scoped Unlabelled Δ → s.declared? = none →
      padded.stmt (.padded k) (s.without k) s (.padded k) :=
    fun h hd => ⟨rfl, rfl, fun _ => hd, Δ, blank, settled, h⟩
  have declares : ∀ {n : Name}, s.declared? = some n → k ≠ 0 ∧ (PaddedSite.padded k).Inner := by
    intro n hn
    have inner : k ≠ 0 := fun top => nomatch (hk top).symm.trans hn
    exact ⟨inner, fun same => inner (PaddedSite.padded.inj same)⟩
  cases h with
  | expression _ h => exact .expression (expr h)
  | print _ h => exact .print (expr h)
  | @var _ n e _ hn h =>
      obtain ⟨below, inner⟩ := declares rfl
      have initializer := expr?_padded h (blank.mark below n.text false) (settled.initializer hn.identifier)
      exact .var (fun _ _ _ h => h) initializer ⟨rfl, rfl, inner⟩
  | block _ h =>
      have inside : (Δ.push .empty).Blank (k + 1) := blank
      exact .block rfl (stmts_padded h inside settled.push (Nat.succ_ne_zero k))
  | @function _ d _ hn h =>
      obtain ⟨below, inner⟩ := declares rfl
      have made := function_padded h (blank.mark below d.name.text true) ((settled.mark hn.identifier).inFunction _)
      exact .function ⟨d.without_name (k + 1), rfl, inner⟩ made
  | @classDecl _ n c ms _ hn hc hms =>
      obtain ⟨below, inner⟩ := declares rfl
      have marked := settled.mark hn.identifier
      have blank' := blank.mark below n.text true
      have superclass : Option.Rel (padded.read (.padded k)) (c.map fun p => (p.1, p.2.without k)) c := by
        cases c with
        | none => exact .none
        | some p =>
            obtain ⟨name, ref⟩ := p
            obtain ⟨_, _, reads⟩ := hc _ rfl
            have bound := reads.bound
            dsimp only at bound
            subst bound
            exact .some ⟨rfl, refers blank' _⟩
      refine .classDecl rfl superclass ⟨rfl, rfl, inner⟩ ?_
      have site : padded.thisSite (c.map fun p => (p.1, p.2.without k)).isSome
          (padded.methodsSite (c.map fun p => (p.1, p.2.without k)).isSome (.padded k)) =
            .padded (Binding.classDepth c.isSome k) := by
        cases c <;> rfl
      rw [site, FunctionDecl.withoutAll_eq_map, List.forall₂_map_left_iff]
      refine List.forall₂_same.2 fun d hd => ?_
      exact function_padded (hms d hd) (blank'.inClass _ _)
        (agreement.method_settled marked _ c.isSome _ ClassContext.isSome_of_derived)
  | @ite _ c t e _ hc ht h he h' =>
      refine .ite (expr hc) (branch h ht) ?_
      cases e with
      | none => exact .none
      | some e => exact .some (branch (h' e rfl) (he e rfl))
  | ret _ _ _ h => exact .ret trivial (expr?_padded h blank settled.ready)
  | loop _ hc hb h => exact .loop (expr hc) (branch h hb)

theorem expr_parts {e e' : Expr Binding} (h : padded.expr Γ e e') : padded.ExprMatch Γ e e' := by
  cases Γ with
  | same =>
      cases h
      exact expr_parts_same e
  | padded k =>
      obtain ⟨rfl, Δ, blank, ready, h⟩ := h
      exact expr_parts_padded h blank ready

theorem stmt_parts {s s' : Stmt Binding} (h : padded.stmt Γ s s' Γ₁) : padded.StmtMatch Γ s s' Γ₁ := by
  cases Γ with
  | same =>
      obtain ⟨rfl, rfl⟩ := h
      exact stmt_parts_same s
  | padded k =>
      obtain ⟨rfl, rfl, hk, Δ, blank, settled, h⟩ := h
      exact stmt_parts_padded h blank settled hk

/-! ## The laws -/

theorem sameAccess_refl {α : Type} (x : Except AccessError α) : padded.SameAccess Eq x x := by
  cases x with
  | ok a => exact .ok rfl
  | error e =>
      cases e with
      | undefined _ | uninitialized _ => exact .error (.error rfl)
      | unbound _ | beyond _ => exact .error (.fault trivial)

/-- A distance that leads beyond both chains. -/
theorem slotAt_beyond {F : Frames} {c : Chain} {d : Int} {name : String} (h : (c)[d.toNat]? = none) :
    F.slotAt c d name = .error (.beyond (d.toNat - c.length)) := by
  unfold Frames.slotAt Frames.ancestor
  rw [h]
  rfl

theorem global_find? (hF : w.Agrees F F') (x : String) :
    F'.find? Heap.globalFrame x = F.find? Heap.globalFrame x := by
  have same := hF.same Heap.globalFrame hF.pos x
  rwa [hF.global] at same

theorem lookUp (hF : w.Agrees F F') (hc : w.Chains Γ c c') (n : Name) {r r' : Binding} (h : Γ.Refers r r') :
    padded.SameAccess Eq (F.lookUp c n r) (F'.lookUp c' n r') := by
  rcases h.cases with ⟨rfl, rfl⟩ | ⟨d, d', rfl, rfl⟩
  · unfold Frames.lookUp
    dsimp only
    rw [Frames.get_globalChain, Frames.get_globalChain, global_find? hF]
    exact sameAccess_refl _
  · unfold Frames.lookUp Frames.getAt
    dsimp only
    rcases hc.get h with ⟨id, hid, hid', hlt⟩ | ⟨hnone, hnone'⟩
    · have reached : F.slotAt c d n.text = F'.slotAt c' d' n.text :=
        Frames.slotAt_congr (by simpa using hid) (by simpa using hid') (hF.same id hlt n.text).symm
      rw [reached]
      exact sameAccess_refl _
    · rw [slotAt_beyond (by simpa using hnone), slotAt_beyond (by simpa using hnone')]
      exact .error (.fault trivial)

theorem target (hF : w.Agrees F F') (hc : w.Chains Γ c c') (n : Name) {r r' : Binding} (h : Γ.Refers r r') :
    padded.SameAccess
      (fun id id' => ∀ v, ∃ w', Padding.Le w w' ∧
        w'.Agrees (F.define id n.text (.value v)) (F'.define id' n.text (.value v)))
      (F.target c n r) (F'.target c' n r') := by
  rcases h.cases with ⟨rfl, rfl⟩ | ⟨d, d', rfl, rfl⟩
  · unfold Frames.target
    dsimp only
    rw [Frames.holder_globalChain, Frames.holder_globalChain, global_find? hF]
    split
    · refine .ok fun v => ⟨w, .refl w, ?_⟩
      have inside : Heap.globalFrame < w.size := hF.pos
      have changed := hF.define inside n.text (.value v)
      rwa [hF.global] at changed
    · exact .error (.error rfl)
  · unfold Frames.target Frames.ancestor
    simp only [Int.toNat_natCast]
    rcases hc.get h with ⟨id, hid, hid', hlt⟩ | ⟨hnone, hnone'⟩
    · rw [hid, hid']
      exact .ok fun v => ⟨w, .refl w, hF.define hlt n.text (.value v)⟩
    · rw [hnone, hnone']
      exact .error (.fault trivial)

/-- The machine's own variables are found in frames that correspond. -/
theorem own? (hF : w.Agrees F F') (hc : w.Chains Γ c c') (d d' : Int)
    (h : Γ.Refers (.scoped d.toNat) (.scoped d'.toNat)) (name : String) : F.own? c d name = F'.own? c' d' name := by
  unfold Frames.own?
  rcases hc.get h with ⟨id, hid, hid', hlt⟩ | ⟨hnone, hnone'⟩
  · rw [Frames.slotAt_congr hid hid' (hF.same id hlt name).symm]
  · rw [slotAt_beyond hnone, slotAt_beyond hnone']

theorem enter (hF : w.Agrees F F') (hc : w.Chains Γ c c') (frame : Frame) :
    ∃ w' : Padding, w.Le w' ∧ w'.Agrees (Array.push F frame) (Array.push F' frame) ∧
      w'.Chains Γ.deeper (F.size :: c) (F'.size :: c') := by
  refine ⟨_, w.le_push, hF.push frame, ?_⟩
  rw [hF.size, hF.size']
  exact hc.push

/-- Both environments have an innermost frame, of which the second may be the one of the empty scope. -/
theorem innermost (hF : w.Agrees F F') (hc : w.Chains Γ c c') :
    ∃ id outer id' outer', c = id :: outer ∧ c' = id' :: outer' ∧ id < F.size ∧ id' < F'.size := by
  obtain ⟨pad, hpad, rfl⟩ := hc.right
  cases c with
  | nil => exact absurd rfl hc.ne_nil
  | cons id outer =>
      have hlt := hc.known id List.mem_cons_self
      rw [hF.size, hF.size']
      cases Γ with
      | same => exact ⟨id, outer, w.place id, _, rfl, rfl, hlt, hF.bound id hlt⟩
      | padded k =>
          cases k with
          | zero => exact ⟨id, outer, pad, _, rfl, rfl, hlt, hpad⟩
          | succ k => exact ⟨id, outer, w.place id, _, rfl, List.insertIdx_succ_cons, hlt, hF.bound id hlt⟩

theorem refers_innermost (inner : Γ.Inner) : Γ.Refers (.scoped 0) (.scoped 0) := by
  cases Γ with
  | same => rfl
  | padded k =>
      refine ⟨rfl, fun same => ?_⟩
      cases same
      exact inner rfl

theorem ownSuper (hF : w.Agrees F F') (hc : w.Chains Γ c c') {d d' : Nat} (h : Γ.Refers (.scoped d) (.scoped d'))
    (inner : Γ.Refers (.scoped (d - 1)) (.scoped (d' - 1))) :
    padded.SameOwn Value.IsClass (F.own? c d Keyword.superWord.text) (F'.own? c' d' Keyword.superWord.text) ∧
      padded.SameOwn Value.IsInstance (F.own? c ((d : Int) - 1) Keyword.thisWord.text)
        (F'.own? c' ((d' : Int) - 1) Keyword.thisWord.text) := by
  have pred : ∀ e : Nat, ((e : Int) - 1).toNat = e - 1 := by omega
  rw [← pred, ← pred] at inner
  exact ⟨⟨own? hF hc d d' h _, .inl trivial⟩, ⟨own? hF hc _ _ inner _, .inl trivial⟩⟩

theorem lawful : padded.Lawful where
  le_refl := .refl
  le_trans h h' := h.trans h'
  chain_mono hw hc := hc.mono hw
  chain_head := innermost
  failure_line := by
    rintro Γ l l' cause lexeme rfl
    rfl
  failure_read := by
    rintro Γ n r n' r' cause ⟨same, _⟩
    cases same
    rfl
  lookUp := by
    rintro w Γ F F' c c' n r n' r' hF hc ⟨same, h⟩
    cases same
    exact lookUp hF hc n h
  target := by
    rintro w Γ F F' c c' n r n' r' hF hc ⟨same, h⟩
    cases same
    exact target hF hc n h
  declare := by
    rintro w Γ Γ₁ F F' id id' c c' n n' slot hF hc ⟨rfl, rfl, inner⟩
    rw [hc.head inner]
    rw [hc.head inner] at hc
    exact ⟨w, .refl w, hF.define (hc.known id List.mem_cons_self) n.text slot, hc⟩
  declare_again := by
    rintro Γ n n' Γ₁ ⟨rfl, rfl, inner⟩
    exact ⟨rfl, rfl, inner⟩
  enter := by
    rintro w Γ Γ₁ F F' c c' hF hc rfl
    exact enter hF hc .empty
  enterFunction := by
    rintro w Γ Γ₁ F F' c c' ps ps' vs hF hc ⟨rfl, rfl⟩ _
    exact enter hF hc _
  parameters_length := by
    rintro Γ ps ps' Γ₁ ⟨rfl, _⟩
    rfl
  enterSuper _ hF hc := enter hF hc _
  enterThis _ _ hF hc := enter hF hc _
  initial_this _ Γ := Γ.inner_deeper
  ownThis hF hc inner := ⟨own? hF hc 0 0 (refers_innermost inner) _, .inl trivial⟩
  superRef_cases := by
    rintro Γ r r' ⟨h, _⟩
    rcases h.cases with ⟨rfl, rfl⟩ | tied
    · exact .inl ⟨rfl, rfl, trivial⟩
    · exact .inr tied
  ownSuper := by
    rintro w Γ F F' c c' d d' hF hc ⟨h, h'⟩
    exact ownSuper hF hc h (h' d d' rfl rfl)
  returns_enter _ _ := trivial
  returns_declare _ _ := trivial
  expr_parts := expr_parts
  stmt_parts := stmt_parts

end padded

end LoxScript
