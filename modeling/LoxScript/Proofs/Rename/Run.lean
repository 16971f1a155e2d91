import LoxScript.Proofs.Lockstep.Evaluate
import LoxScript.Proofs.Rename.Scoped

/-!
# Renamed programs run in lockstep

The frames of the scope in which a variable is renamed are marked. Both machines keep the same values in the same
frames, but in a marked frame the two names have changed places.
-/

namespace LoxScript

namespace Table

variable {α : Type}

theorem find?_foldl_insert_map {f : String → String} (hf : ∀ {x y}, f x = f y → x = y) (x : String)
    (entries : List (String × α)) {t t' : Table α} (ht : t'.find? (f x) = t.find? x) :
    ((entries.map (Prod.map f id)).foldl (fun t (name, a) => t.insert name a) t').find? (f x) =
      (entries.foldl (fun t (name, a) => t.insert name a) t).find? x := by
  induction entries generalizing t t' with
  | nil => exact ht
  | cons entry entries ih =>
      obtain ⟨key, a⟩ := entry
      refine ih ?_
      simp only [Prod.map, id, find?_insert, ht]
      by_cases same : x = key
      · simp [same]
      · rw [if_neg same, if_neg fun h => same (hf h)]

/-- A table whose names are changed by an injective function. -/
theorem find?_ofList_map {f : String → String} (hf : ∀ {x y}, f x = f y → x = y) (entries : List (String × α))
    (x : String) : (ofList (entries.map (Prod.map f id))).find? (f x) = (ofList entries).find? x :=
  find?_foldl_insert_map hf x entries rfl

end Table

namespace Renaming

/-- Errors that differ at most by the name of the variable. -/
inductive SameError (σ : Renaming) : RuntimeError → RuntimeError → Prop where
  | same {e} : SameError σ e e
  | lexeme {cause line} : SameError σ ⟨cause, σ.old, line⟩ ⟨cause, σ.new, line⟩
  | uninitialized {line} : SameError σ ⟨.uninitializedVariable σ.old, σ.old, line⟩
      ⟨.uninitializedVariable σ.new, σ.new, line⟩

/-- The frames that there are, and which of them belong to the scope of the variable. -/
structure Marking where
  size : Nat
  marked : FrameId → Bool

namespace Marking

/-- Under which name the second machine keeps in a frame what the first keeps under `x`. -/
def key (σ : Renaming) (w : Marking) (id : FrameId) (x : String) : String :=
  if w.marked id then σ.swap x else x

structure Agrees (σ : Renaming) (w : Marking) (F F' : Frames) : Prop where
  size : F.size = w.size
  size' : F'.size = w.size
  pos : 0 < w.size
  global : w.marked Heap.globalFrame = false
  find : ∀ id x, F'.find? id (w.key σ id x) = F.find? id x

/-- The frame of the variable is as far out as its scope, and no other frame of the chain is marked. -/
def Covers (w : Marking) (k : Option Nat) (c : Chain) : Prop :=
  ∀ j id, (c)[j]? = some id → id < w.size ∧ (w.marked id = true ↔ k = some j)

structure Le (w w' : Marking) : Prop where
  size : w.size ≤ w'.size
  marked : ∀ id, id < w.size → w'.marked id = w.marked id

def push (w : Marking) (mark : Bool) : Marking :=
  ⟨w.size + 1, fun id => if id = w.size then mark else w.marked id⟩

variable {σ : Renaming} {w : Marking} {F F' : Frames} {k : Option Nat} {c : Chain}

theorem key_inj {id : FrameId} {x y : String} : w.key σ id x = w.key σ id y ↔ x = y := by
  unfold key
  split
  · exact ⟨σ.swap_inj, congrArg _⟩
  · exact Iff.rfl

theorem le_push (w : Marking) (mark : Bool) : w.Le (w.push mark) := by
  refine ⟨Nat.le_succ _, fun id hid => ?_⟩
  unfold push
  exact if_neg (Nat.ne_of_lt hid)

theorem Agrees.define (h : w.Agrees σ F F') {id : FrameId} (hid : id < w.size) (x : String) (slot : Slot) :
    w.Agrees σ (F.define id x slot) (F'.define id (w.key σ id x) slot) := by
  refine ⟨?_, ?_, h.pos, h.global, fun other y => ?_⟩
  · rw [Frames.size_define, h.size]
  · rw [Frames.size_define, h.size']
  · rw [Frames.find?_define, Frames.find?_define, h.size, h.size', h.find]
    by_cases same : other = id
    · subst same
      simp only [key_inj]
    · simp only [same, false_and]

theorem Agrees.push (h : w.Agrees σ F F') {mark : Bool} {frame frame' : Frame}
    (hframe : ∀ x, frame'.find? (if mark then σ.swap x else x) = frame.find? x) :
    (w.push mark).Agrees σ (Array.push F frame) (Array.push F' frame') := by
  refine ⟨?_, ?_, Nat.succ_pos _, ?_, fun id x => ?_⟩
  · rw [Array.size_push, h.size]
    rfl
  · rw [Array.size_push, h.size']
    rfl
  · exact ((w.le_push mark).marked Heap.globalFrame h.pos).trans h.global
  · rw [Frames.find?_push, Frames.find?_push, h.size, h.size']
    by_cases new : id = w.size
    · rw [if_pos new, if_pos new]
      simpa [key, Marking.push, new] using hframe x
    · rw [if_neg new, if_neg new]
      simpa [key, Marking.push, new] using h.find id x

theorem Agrees.key_global (h : w.Agrees σ F F') (x : String) : w.key σ Heap.globalFrame x = x := by
  unfold key
  rw [h.global]
  rfl

theorem Agrees.find?_global (h : w.Agrees σ F F') (x : String) :
    F'.find? Heap.globalFrame x = F.find? Heap.globalFrame x := by
  have found := h.find Heap.globalFrame x
  rw [h.key_global] at found
  exact found

/-- The variables that the machine itself binds keep their names. -/
theorem Agrees.find?_keyword (h : w.Agrees σ F F') (plain : σ.Plain) (id : FrameId) (kw : Keyword) :
    F'.find? id kw.text = F.find? id kw.text := by
  have found := h.find id kw.text
  unfold key at found
  rw [plain.swap_keyword, ite_self] at found
  exact found

theorem Agrees.own? (h : w.Agrees σ F F') (plain : σ.Plain) (c : Chain) (distance : Int)
    (kw : Keyword) : F.own? c distance kw.text = F'.own? c distance kw.text := by
  unfold Frames.own? Frames.slotAt
  cases Frames.ancestor c distance with
  | error e => rfl
  | ok id =>
      simp only [bind, Except.bind]
      rw [h.find?_keyword plain]

theorem Covers.mono (h : w.Covers k c) {w' : Marking} (hw : w.Le w') : w'.Covers k c := by
  intro j id hid
  obtain ⟨hlt, hmarked⟩ := h j id hid
  refine ⟨Nat.lt_of_lt_of_le hlt hw.size, ?_⟩
  rw [hw.marked id hlt]
  exact hmarked

/-- A new innermost frame, which is marked if it belongs to the scope of the variable. -/
theorem Covers.push (h : w.Covers k c) {mark : Bool} {k₁ : Option Nat} (hmark : mark = true ↔ k₁ = some 0)
    (houter : ∀ j, k₁ = some (j + 1) ↔ k = some j) : (w.push mark).Covers k₁ (w.size :: c) := by
  intro j id hid
  cases j with
  | zero =>
      cases hid
      refine ⟨Nat.lt_succ_self _, ?_⟩
      simpa [Marking.push] using hmark
  | succ j =>
      obtain ⟨hlt, hmarked⟩ := h.mono (w.le_push mark) j id hid
      exact ⟨hlt, hmarked.trans (houter j).symm⟩

end Marking

/-- The scopes that a scope may have inside: those inside the scope of the variable, and that scope itself. -/
def Enters (k k₁ : Option Nat) : Prop :=
  k₁ = k.map (· + 1) ∨ k = none ∧ k₁ = some 0

theorem Enters.chain {w : Marking} {k k₁ : Option Nat} {c : Chain} (h : Enters k k₁) (hc : w.Covers k c) :
    (w.push (k₁ == some 0)).Covers k₁ (w.size :: c) := by
  refine hc.push (by simp) fun j => ?_
  rcases h with rfl | ⟨rfl, rfl⟩
  · cases k <;> simp
  · simp

theorem Marking.Covers.inner {w : Marking} {k : Option Nat} {c : Chain} (hc : w.Covers k c) :
    (w.push false).Covers (k.map (· + 1)) (w.size :: c) := by
  refine hc.push ?_ fun j => ?_
  · cases k <;> simp
  · cases k <;> simp

/-- The correspondence of a program with the program in which a variable is renamed. -/
def renamed (σ : Renaming) : Lockstep where
  World := Marking
  Site := Option Nat
  le := Marking.Le
  frames w F F' := w.Agrees σ F F'
  chain w k c c' := c' = c ∧ c ≠ [] ∧ w.Covers k c
  expr k e e' := e' = e.rename σ k ∧ σ.new ∉ e.names
  stmt k s s' k₁ := k₁ = k ∧ σ.new ∉ s.names ∧ (∃ Γ, s.Scoped Unlabelled Γ) ∧
    (s' = s.rename σ k ∧ (k = some 0 → s.OnlyVar σ.old) ∨ k = none ∧ s.Renames σ s')
  line _ l l' := l' = l
  read k p p' := p' = (σ.used k p.1 p.2, p.2) ∧ p.1.text ≠ σ.new
  write k p p' := p' = (σ.used k p.1 p.2, p.2) ∧ p.1.text ≠ σ.new
  superRef _ r r' := r' = r
  declare k n n' k₁ := k₁ = k ∧ n' = σ.declared k n ∧ n.text ≠ σ.new
  enter := Enters
  enterFunction k ps ps' k₁ := Enters k k₁ ∧ ps' = ps.map (σ.declared k₁) ∧ ∀ p ∈ ps, p.text ≠ σ.new
  superSite k := k.map (· + 1)
  thisSite _ k := k.map (· + 1)
  initial _ := True
  returns _ := True
  failure := σ.SameError
  fault := True

namespace renamed

variable {σ : Renaming} {w : Marking} {F F' : Frames} {k : Option Nat} {c : Chain}

theorem failure_used (cause : RuntimeCause) (k : Option Nat) (n : Name) (ref : Binding) :
    σ.SameError ⟨cause, n.text, n.line⟩ ⟨cause, (σ.used k n ref).text, (σ.used k n ref).line⟩ := by
  unfold used name
  split
  · split
    · next same =>
        rw [same]
        exact .lexeme
    · exact .same
  · exact .same

theorem failure_uninitialized (k : Option Nat) (n : Name) (ref : Binding) :
    σ.SameError ⟨.uninitializedVariable n.text, n.text, n.line⟩
      ⟨.uninitializedVariable (σ.used k n ref).text, (σ.used k n ref).text, (σ.used k n ref).line⟩ := by
  unfold used name
  split
  · split
    · next same =>
        rw [same]
        exact .uninitialized
    · exact .same
  · exact .same

/-- Where a reference leads, the frames keep the same under its name. -/
theorem key_used (hc : w.Covers k c) {d : Nat} {id : FrameId} (hid : (c)[d]? = some id) {n : Name}
    (hn : n.text ≠ σ.new) : (σ.used k n (.scoped d)).text = w.key σ id n.text := by
  have marked := (hc d id hid).2
  unfold Marking.key used
  by_cases hk : k = some d
  · rw [if_pos (marked.2 hk), if_pos (by rw [hk]; rfl), σ.name_text hn]
  · have other : k.map Binding.scoped ≠ some (.scoped d) := by
      cases k with
      | none => simp
      | some j => simpa using hk
    rw [if_neg fun h => hk (marked.1 h), if_neg other]

theorem used_global (k : Option Nat) (n : Name) : σ.used k n .global = n := by
  unfold used
  cases k <;> simp

theorem holder_global (hF : w.Agrees σ F F') (n : Name) :
    F'.holder Heap.globalChain n = F.holder Heap.globalChain n := by
  rw [Frames.holder_globalChain, Frames.holder_globalChain, hF.find?_global]

theorem get_global (hF : w.Agrees σ F F') (n : Name) : F'.get Heap.globalChain n = F.get Heap.globalChain n := by
  rw [Frames.get_globalChain, Frames.get_globalChain, hF.find?_global]

/-! ## The pieces of the renamed code -/

theorem relOption_map {α β : Type} {R : α → β → Prop} {f : α → β} {a : Option α} (h : ∀ x ∈ a, R x (f x)) :
    Option.Rel R a (a.map f) := by
  cases a with
  | none => exact .none
  | some x => exact .some (h x rfl)

theorem declared_other {n : Name} (h : k = some 0 → n.text ≠ σ.old) : σ.declared k n = n := by
  unfold declared
  split
  · next hk => exact σ.name_of_ne (h hk)
  · rfl

theorem used_keyword (plain : σ.Plain) (k : Option Nat) (kw : Keyword) (line : Int) (ref : Binding) :
    σ.used k ⟨kw.text, line⟩ ref = ⟨kw.text, line⟩ := by
  have old : (⟨σ.old, 0⟩ : Name).IsIdentifier := plain.old
  unfold used
  split
  · exact σ.name_of_ne (old.ne_keyword kw).symm
  · rfl

theorem keyword_ne_new (plain : σ.Plain) (kw : Keyword) : kw.text ≠ σ.new := by
  have new : (⟨σ.new, 0⟩ : Name).IsIdentifier := plain.new
  exact (new.ne_keyword kw).symm

theorem expr_parts (plain : σ.Plain) {e e' : Expr Binding} (h : (renamed σ).expr k e e') :
    (renamed σ).ExprMatch k e e' := by
  obtain ⟨rfl, hn⟩ := h
  have part : ∀ {e : Expr Binding}, σ.new ∉ e.names → (renamed σ).expr k e (e.rename σ k) := fun hn => ⟨rfl, hn⟩
  cases e with
  | literal v => exact .literal
  | grouping e => exact .grouping (part hn)
  | unary op l e => exact .unary rfl (part hn)
  | binary op l a b =>
      simp only [Expr.names, List.mem_append, not_or] at hn
      exact .binary rfl (part hn.1) (part hn.2)
  | logical op l a b =>
      simp only [Expr.names, List.mem_append, not_or] at hn
      exact .logical (part hn.1) (part hn.2)
  | var n ref =>
      simp only [Expr.names, List.mem_singleton] at hn
      exact .var ⟨rfl, Ne.symm hn⟩
  | assign n ref v =>
      simp only [Expr.names, List.mem_cons, not_or] at hn
      exact .assign ⟨rfl, Ne.symm hn.1⟩ (part hn.2)
  | call f l es =>
      simp only [Expr.names, List.mem_append, not_or] at hn
      refine .call rfl (part hn.1) ?_
      rw [Expr.renameAll_eq_map, List.forall₂_map_right_iff]
      exact List.forall₂_same.2 fun e he => part fun hx => hn.2 (Expr.mem_namesAll.2 ⟨e, he, hx⟩)
  | get e n => exact .get ⟨rfl, rfl⟩ (part hn)
  | set e n v =>
      simp only [Expr.names, List.mem_append, not_or] at hn
      exact .set ⟨rfl, rfl⟩ (part hn.1) (part hn.2)
  | this l ref =>
      refine .this ⟨?_, keyword_ne_new plain .thisWord⟩
      rw [used_keyword plain]
  | super l m ref => exact .super ⟨rfl, rfl⟩ rfl

theorem stmts {Γ : Context} {ss : List (Stmt Binding)} (h : Stmts.Scoped Unlabelled Γ ss)
    (hn : σ.new ∉ Stmt.namesAll ss) (hold : k = some 0 → ∀ s ∈ ss, s.OnlyVar σ.old) :
    (renamed σ).Stmts k ss (Stmt.renameAll σ k ss) := by
  induction ss generalizing Γ with
  | nil => exact .nil
  | cons s ss ih =>
      simp only [Stmt.namesAll, List.mem_append, not_or] at hn
      cases h with
      | cons h hss =>
          have first : (renamed σ).stmt k s (s.rename σ k) k :=
            ⟨rfl, hn.1, ⟨Γ, h⟩, .inl ⟨rfl, fun hk => hold hk s List.mem_cons_self⟩⟩
          exact .cons first (ih hss hn.2 fun hk t ht => hold hk t (List.mem_cons_of_mem _ ht))

theorem function {Γ : Context} {kind : FunctionContext} {d : FunctionDecl Binding} {k₁ : Option Nat}
    (h : d.Scoped Unlabelled kind Γ) (hn : σ.new ∉ d.names) (hk : Enters k k₁)
    (hold : k₁ = some 0 → ∀ s ∈ d.body, s.OnlyVar σ.old) : (renamed σ).Function k d (d.rename σ k₁) := by
  cases h with
  | mk hps h =>
      simp only [FunctionDecl.names, List.mem_append, List.mem_map, not_or, not_exists, not_and] at hn
      exact ⟨rfl, k₁, ⟨hk, rfl, hn.1⟩, stmts h hn.2 hold⟩

theorem inner_ne (k : Option Nat) : k.map (· + 1) ≠ some 0 := by
  cases k <;> simp

theorem branch {Γ : Context} {s : Stmt Binding} (h : s.Scoped Unlabelled Γ) (hd : s.declared? = none)
    (hn : σ.new ∉ s.names) : (renamed σ).stmt k s (s.rename σ k) k :=
  ⟨rfl, hn, ⟨Γ, h⟩, .inl ⟨rfl, fun _ => .of_none hd⟩⟩

theorem expr? {e : Option (Expr Binding)} (hn : σ.new ∉ Expr.names? e) :
    Option.Rel ((renamed σ).expr k) e (e.map (Expr.rename σ k)) := by
  refine relOption_map fun v hv => ⟨rfl, ?_⟩
  cases hv
  exact hn

theorem methodsSite_eq (hasSuperclass : Bool) (k : Option Nat) :
    (renamed σ).thisSite hasSuperclass ((renamed σ).methodsSite hasSuperclass k) =
      Renaming.inClass hasSuperclass k := by
  cases hasSuperclass <;> rfl

theorem rename_parts {Γ : Context} {s : Stmt Binding} (h : s.Scoped Unlabelled Γ) (hn : σ.new ∉ s.names)
    (hold : k = some 0 → s.OnlyVar σ.old) : (renamed σ).StmtMatch k s (s.rename σ k) k := by
  cases h with
  | expression _ _ => exact .expression ⟨rfl, hn⟩
  | print _ _ => exact .print ⟨rfl, hn⟩
  | var _ _ _ =>
      simp only [Stmt.names, List.mem_cons, not_or] at hn
      exact .var (fun _ _ _ hc => hc) (expr? hn.2) ⟨rfl, rfl, Ne.symm hn.1⟩
  | block _ h => exact .block (.inl rfl) (stmts h hn fun hk => absurd hk (inner_ne k))
  | @function _ d _ _ h =>
      simp only [Stmt.names, List.mem_cons, not_or] at hn
      have kept := declared_other fun hk => (hold hk).function_ne
      refine .function ⟨rfl, ?_, Ne.symm hn.1⟩ (function h hn.2 (.inl rfl) fun hk => absurd hk (inner_ne k))
      rw [kept]
      exact d.rename_name σ _
  | @classDecl _ n c ms _ _ _ hms =>
      simp only [Stmt.names, List.mem_cons, List.mem_append, Option.mem_toList, not_or] at hn
      obtain ⟨hn, hnc, hnms⟩ := hn
      have kept := declared_other fun hk => (hold hk).classDecl_ne
      refine .classDecl rfl (relOption_map fun p hp => ⟨rfl, fun same => ?_⟩) ⟨rfl, kept.symm, Ne.symm hn⟩ ?_
      · exact hnc (by rw [hp, Option.map_some, same])
      · rw [methodsSite_eq, FunctionDecl.renameAll_eq_map, List.forall₂_map_right_iff]
        refine List.forall₂_same.2 fun d hd => ?_
        have fresh : σ.new ∉ d.names := fun hx => hnms (FunctionDecl.mem_namesAll.2 ⟨d, hd, hx⟩)
        exact function (hms d hd) fresh (.inl rfl) fun hk => absurd hk (inner_ne _)
  | @ite _ _ _ e _ _ ht h he h' =>
      simp only [Stmt.names, List.mem_append, not_or] at hn
      refine .ite ⟨rfl, hn.1⟩ (branch h ht hn.2.1) ?_
      cases e with
      | none => exact .none
      | some e => exact .some (branch (h' e rfl) (he e rfl) hn.2.2)
  | ret _ _ _ _ => exact .ret trivial (expr? hn)
  | loop _ _ hb h =>
      simp only [Stmt.names, List.mem_append, not_or] at hn
      exact .loop ⟨rfl, hn.1⟩ (branch h hb hn.2)

/-- Code that is the same in both programs. -/
theorem same {Γ : Context} {s : Stmt Binding} (h : s.Scoped Unlabelled Γ) (hn : σ.new ∉ s.names) :
    (renamed σ).stmt none s s none :=
  ⟨rfl, hn, ⟨Γ, h⟩, .inl ⟨(s.rename_none σ).symm, fun hk => by cases hk⟩⟩

theorem same_stmts {Γ : Context} {ss : List (Stmt Binding)} (h : Stmts.Scoped Unlabelled Γ ss)
    (hn : σ.new ∉ Stmt.namesAll ss) : (renamed σ).Stmts none ss ss := by
  have made := stmts (σ := σ) (k := none) h hn fun hk => by cases hk
  rw [Stmt.renameAll_none] at made
  exact made

theorem same_function {Γ : Context} {kind : FunctionContext} {d : FunctionDecl Binding}
    (h : d.Scoped Unlabelled kind Γ) (hn : σ.new ∉ d.names) : (renamed σ).Function none d d := by
  have made := function (σ := σ) h hn (.inl rfl : Enters none none) fun hk => by cases hk
  rw [FunctionDecl.rename_none] at made
  exact made

theorem renames_stmts {Γ : Context} {ss ss' : List (Stmt Binding)} (hr : Stmts.Renames σ ss ss')
    (h : Stmts.Scoped Unlabelled Γ ss) (hn : σ.new ∉ Stmt.namesAll ss) : (renamed σ).Stmts none ss ss' := by
  induction ss generalizing Γ ss' with
  | nil => cases hr
  | cons s ss ih =>
      simp only [Stmt.namesAll, List.mem_append, not_or] at hn
      cases h with
      | cons h hss =>
          cases hr with
          | head hr => exact .cons ⟨rfl, hn.1, ⟨Γ, h⟩, .inr ⟨rfl, hr⟩⟩ (same_stmts hss hn.2)
          | tail hr => exact .cons (same h hn.1) (ih hr hss hn.2)

theorem renames_function {Γ : Context} {kind : FunctionContext} {d d' : FunctionDecl Binding}
    (hr : FunctionDecl.Renames σ d d') (h : d.Scoped Unlabelled kind Γ) (hn : σ.new ∉ d.names) :
    (renamed σ).Function none d d' := by
  cases hr with
  | scope hv => exact function h hn (.inr ⟨rfl, rfl⟩) fun _ => h.onlyVar hv
  | body hr =>
      cases h with
      | mk hps h =>
          simp only [FunctionDecl.names, List.mem_append, List.mem_map, not_or, not_exists, not_and] at hn
          have parameters : σ.declared none = id := funext σ.declared_none
          refine ⟨rfl, none, ⟨.inl rfl, ?_, hn.1⟩, renames_stmts hr h hn.2⟩
          rw [parameters, List.map_id]
          rfl

theorem renames_functions {Γ : Context} {ds ds' : List (FunctionDecl Binding)} (hr : FunctionDecls.Renames σ ds ds')
    (h : ∀ d ∈ ds, d.Scoped Unlabelled (.ofMethod d) Γ) (hn : σ.new ∉ FunctionDecl.namesAll ds) :
    List.Forall₂ ((renamed σ).Function none) ds ds' := by
  induction ds generalizing ds' with
  | nil => cases hr
  | cons d ds ih =>
      simp only [FunctionDecl.namesAll, List.mem_append, not_or] at hn
      have rest : ∀ e ∈ ds, e.Scoped Unlabelled (.ofMethod e) Γ := fun e he => h e (List.mem_cons_of_mem _ he)
      cases hr with
      | head hr =>
          refine .cons (renames_function hr (h d List.mem_cons_self) hn.1) (List.forall₂_same.2 fun e he => ?_)
          exact same_function (rest e he) fun hx => hn.2 (FunctionDecl.mem_namesAll.2 ⟨e, he, hx⟩)
      | tail hr => exact .cons (same_function (h d List.mem_cons_self) hn.1) (ih hr rest hn.2)

/-- The statement around the scope in which the variable is renamed. -/
theorem renames_parts {Γ : Context} {s s' : Stmt Binding} (hr : Stmt.Renames σ s s') (h : s.Scoped Unlabelled Γ)
    (hn : σ.new ∉ s.names) : (renamed σ).StmtMatch none s s' none := by
  have expr : ∀ {e : Expr Binding}, σ.new ∉ e.names → (renamed σ).expr none e e :=
    fun hn => ⟨(Expr.rename_none σ _).symm, hn⟩
  have declare : ∀ {n : Name}, n.text ≠ σ.new → (renamed σ).declare none n n none :=
    fun hn => ⟨rfl, (σ.declared_none _).symm, hn⟩
  cases hr with
  | scope hv =>
      cases h with
      | block _ h =>
          have inside : (Γ.push .empty).scopes ≠ [] := by simp [Context.push]
          exact .block (.inr ⟨rfl, rfl⟩) (stmts h hn fun _ => h.onlyVar inside hv)
  | block hr =>
      cases h with
      | block _ h => exact .block (.inl rfl) (renames_stmts hr h hn)
  | @function d d' hr =>
      cases h with
      | function _ _ h =>
          simp only [Stmt.names, List.mem_cons, not_or] at hn
          have made := renames_function hr h hn.2
          have name : d'.name = d.name := by
            cases hr with
            | scope _ => exact d.rename_name σ _
            | body _ => rfl
          refine .function ?_ made
          rw [name]
          exact declare (Ne.symm hn.1)
  | @classDecl n c ms ms' hr =>
      cases h with
      | classDecl _ _ _ hms =>
          simp only [Stmt.names, List.mem_cons, List.mem_append, Option.mem_toList, not_or] at hn
          obtain ⟨hn, hnc, hnms⟩ := hn
          refine .classDecl rfl ?_ (declare (Ne.symm hn)) ?_
          · cases c with
            | none => exact .none
            | some p => exact .some ⟨by rw [σ.used_none], fun same => hnc (by rw [Option.map_some, same])⟩
          · rw [methodsSite_eq, inClass_none]
            exact renames_functions hr hms hnms
  | @thenBranch _ _ _ e hr =>
      cases h with
      | ite _ _ ht h he h' =>
          simp only [Stmt.names, List.mem_append, not_or] at hn
          refine .ite (expr hn.1) ⟨rfl, hn.2.1, ⟨Γ, h⟩, .inr ⟨rfl, hr⟩⟩ ?_
          cases e with
          | none => exact .none
          | some e => exact .some (same (h' e rfl) hn.2.2)
  | elseBranch hr =>
      cases h with
      | ite _ _ ht h he h' =>
          simp only [Stmt.names, List.mem_append, not_or] at hn
          exact .ite (expr hn.1) (same h hn.2.1) (.some ⟨rfl, hn.2.2, ⟨Γ, h' _ rfl⟩, .inr ⟨rfl, hr⟩⟩)
  | loop hr =>
      cases h with
      | loop _ _ hb h =>
          simp only [Stmt.names, List.mem_append, not_or] at hn
          exact .loop (expr hn.1) ⟨rfl, hn.2, ⟨Γ, h⟩, .inr ⟨rfl, hr⟩⟩

theorem stmt_parts {k₁ : Option Nat} {s s' : Stmt Binding} (h : (renamed σ).stmt k s s' k₁) :
    (renamed σ).StmtMatch k s s' k₁ := by
  obtain ⟨rfl, hn, ⟨Γ, hs⟩, ⟨rfl, hold⟩ | ⟨rfl, hr⟩⟩ := h
  · exact rename_parts hs hn hold
  · exact renames_parts hr hs hn

/-! ## The laws -/

theorem lookUp (hF : w.Agrees σ F F') (hc : w.Covers k c) {n : Name} {ref : Binding} (hn : n.text ≠ σ.new) :
    (renamed σ).SameAccess Eq (F.lookUp c n ref) (F'.lookUp c (σ.used k n ref) ref) := by
  cases ref with
  | global =>
      rw [used_global]
      unfold Frames.lookUp
      dsimp only
      rw [get_global hF]
      cases F.get Heap.globalChain n with
      | ok v => exact .ok rfl
      | error e =>
          refine .error ?_
          cases e with
          | undefined _ | uninitialized _ => exact .error .same
          | unbound _ | beyond _ => exact .fault trivial
  | «scoped» d =>
      unfold Frames.lookUp Frames.getAt Frames.slotAt Frames.ancestor
      simp only [Int.toNat_natCast]
      cases hid : (c)[d]? with
      | none => exact .error (.fault trivial)
      | some id =>
          simp only [bind, Except.bind, key_used hc hid hn, hF.find]
          cases F.find? id n.text with
          | none => exact .error (.fault trivial)
          | some slot =>
              cases slot with
              | value v => exact .ok rfl
              | uninitialized => exact .error (.error (failure_uninitialized k n _))

theorem target (hF : w.Agrees σ F F') (hc : w.Covers k c) {n : Name} {ref : Binding} (hn : n.text ≠ σ.new) :
    (renamed σ).SameAccess
      (fun id id' => ∀ v, ∃ w', Marking.Le w w' ∧
        w'.Agrees σ (F.define id n.text (.value v)) (F'.define id' (σ.used k n ref).text (.value v)))
      (F.target c n ref) (F'.target c (σ.used k n ref) ref) := by
  have here : Marking.Le w w := ⟨Nat.le_refl _, fun _ _ => rfl⟩
  cases ref with
  | global =>
      rw [used_global]
      unfold Frames.target
      dsimp only
      rw [holder_global hF, Frames.holder_globalChain]
      split
      · refine .ok fun v => ⟨w, here, ?_⟩
        have changed := hF.define hF.pos n.text (.value v)
        rw [show (0 : FrameId) = Heap.globalFrame from rfl, hF.key_global] at changed
        exact changed
      · exact .error (.error .same)
  | «scoped» d =>
      unfold Frames.target Frames.ancestor
      simp only [Int.toNat_natCast]
      cases hid : (c)[d]? with
      | none => exact .error (.fault trivial)
      | some id =>
          refine .ok fun v => ⟨w, here, ?_⟩
          rw [key_used hc hid hn]
          exact hF.define (hc d id hid).1 n.text (.value v)

theorem key_declared {id : FrameId} (hmarked : w.marked id = true ↔ k = some 0) {n : Name} (hn : n.text ≠ σ.new) :
    (σ.declared k n).text = w.key σ id n.text := by
  unfold Marking.key declared
  by_cases hk : k = some 0
  · rw [if_pos hk, if_pos (hmarked.2 hk), σ.name_text hn]
  · rw [if_neg hk, if_neg fun h => hk (hmarked.1 h)]

theorem enter (hF : w.Agrees σ F F') (hc : w.Covers k c) {k₁ : Option Nat} (hk : Enters k k₁)
    {frame frame' : Frame} (hframe : ∀ x, frame'.find? (if k₁ = some 0 then σ.swap x else x) = frame.find? x) :
    ∃ w' : Marking, w.Le w' ∧ w'.Agrees σ (Array.push F frame) (Array.push F' frame') ∧
      (renamed σ).chain w' k₁ (F.size :: c) (F'.size :: c) := by
  refine ⟨_, w.le_push (k₁ == some 0), hF.push fun x => ?_, ?_⟩
  · simpa using hframe x
  · rw [hF.size, hF.size']
    exact ⟨rfl, List.cons_ne_nil _ _, hk.chain hc⟩

/-- The scope of a variable that the machine itself binds, inside that of the renamed variable or outside. -/
theorem enterOwn (hF : w.Agrees σ F F') (hc : w.Covers k c) (frame : Frame) :
    ∃ w' : Marking, w.Le w' ∧ w'.Agrees σ (Array.push F frame) (Array.push F' frame) ∧
      (renamed σ).chain w' (k.map (· + 1)) (F.size :: c) (F'.size :: c) := by
  refine ⟨_, w.le_push false, hF.push fun x => rfl, ?_⟩
  rw [hF.size, hF.size']
  exact ⟨rfl, List.cons_ne_nil _ _, hc.inner⟩

theorem declare (hF : w.Agrees σ F F') {id : FrameId} (hc : w.Covers k (id :: c)) {n : Name} (hn : n.text ≠ σ.new)
    (slot : Slot) :
    ∃ w' : Marking, w.Le w' ∧ w'.Agrees σ (F.define id n.text slot) (F'.define id (σ.declared k n).text slot) ∧
      (renamed σ).chain w' k (id :: c) (id :: c) := by
  obtain ⟨hid, hmarked⟩ := hc 0 id rfl
  rw [key_declared hmarked hn]
  exact ⟨w, ⟨Nat.le_refl _, fun _ _ => rfl⟩, hF.define hid n.text slot, rfl, List.cons_ne_nil _ _, hc⟩

/-- The arguments of a call stand under the new name if the parameter is the variable. -/
theorem find?_arguments {ps : List Name} (hps : ∀ p ∈ ps, p.text ≠ σ.new) (k : Option Nat) (slots : List Slot)
    (x : String) :
    (Table.ofList (((ps.map (σ.declared k)).map Name.text).zip slots)).find?
        (if k = some 0 then σ.swap x else x) =
      (Table.ofList ((ps.map Name.text).zip slots)).find? x := by
  by_cases own : k = some 0
  · have names : (ps.map (σ.declared k)).map Name.text = (ps.map Name.text).map σ.swap := by
      rw [List.map_map, List.map_map]
      refine List.map_congr_left fun p hp => ?_
      rw [Function.comp, Function.comp, declared, if_pos own]
      exact σ.name_text (hps p hp)
    rw [names, List.zip_map_left, if_pos own]
    exact Table.find?_ofList_map (fun h => σ.swap_inj h) _ x
  · have names : ps.map (σ.declared k) = ps := by
      refine (List.map_congr_left fun p _ => ?_).trans (List.map_id ps)
      rw [declared, if_neg own]
      rfl
    rw [names, if_neg own]

theorem lawful (plain : σ.Plain) : (renamed σ).Lawful where
  le_refl w := ⟨Nat.le_refl _, fun _ _ => rfl⟩
  le_trans h h' := ⟨Nat.le_trans h.size h'.size, fun id hid =>
    (h'.marked id (Nat.lt_of_lt_of_le hid h.size)).trans (h.marked id hid)⟩
  chain_mono hw hc := ⟨hc.1, hc.2.1, hc.2.2.mono hw⟩
  chain_head := by
    rintro w k F F' c c' hF ⟨rfl, hne, hc⟩
    cases c' with
    | nil => exact absurd rfl hne
    | cons id outer =>
        have hid := (hc 0 id rfl).1
        exact ⟨id, outer, id, outer, rfl, rfl, hF.size ▸ hid, hF.size' ▸ hid⟩
  failure_line := by
    rintro k l l' cause lexeme rfl
    exact .same
  failure_read := by
    rintro k n r n' r' cause ⟨same, _⟩
    cases same
    exact failure_used cause k n r
  lookUp := by
    rintro w k F F' c c' n r n' r' hF ⟨rfl, _, hc⟩ ⟨same, hn⟩
    cases same
    exact lookUp hF hc hn
  target := by
    rintro w k F F' c c' n r n' r' hF ⟨rfl, _, hc⟩ ⟨same, hn⟩
    cases same
    exact target hF hc hn
  declare := by
    rintro w k k₁ F F' id id' c c' n n' slot hF ⟨same, _, hc⟩ ⟨rfl, rfl, hn⟩
    cases same
    exact declare hF hc hn slot
  declare_again := by
    rintro k n n' k₁ ⟨rfl, hn', hn⟩
    exact ⟨rfl, hn', hn⟩
  enter := by
    rintro w k k₁ F F' c c' hF ⟨rfl, _, hc⟩ hk
    exact enter hF hc hk fun x => rfl
  enterFunction := by
    rintro w k k₁ F F' c c' ps ps' vs hF ⟨rfl, _, hc⟩ ⟨hk, rfl, hps⟩ _
    exact enter hF hc hk (find?_arguments hps k₁ (vs.map Slot.value))
  parameters_length := by
    rintro k ps ps' k₁ ⟨_, rfl, _⟩
    simp
  enterSuper := by
    rintro w k F F' c c' id hF ⟨rfl, _, hc⟩
    exact enterOwn hF hc _
  enterThis := by
    rintro w k F F' c c' b id hF ⟨rfl, _, hc⟩
    exact enterOwn hF hc _
  initial_this _ _ := trivial
  ownThis := by
    rintro w k F F' c c' hF ⟨rfl, _, _⟩ _
    exact ⟨hF.own? plain _ _ .thisWord, .inl trivial⟩
  superRef_cases := by
    rintro k r r' rfl
    cases r' with
    | global => exact .inl ⟨rfl, rfl, trivial⟩
    | «scoped» d => exact .inr ⟨d, d, rfl, rfl⟩
  ownSuper := by
    rintro w k F F' c c' d d' hF ⟨rfl, _, _⟩ same
    cases same
    exact ⟨⟨hF.own? plain _ _ .superWord, .inl trivial⟩, ⟨hF.own? plain _ _ .thisWord, .inl trivial⟩⟩
  returns_enter _ _ := trivial
  returns_declare _ _ := trivial
  expr_parts := expr_parts plain
  stmt_parts := stmt_parts

end renamed

end Renaming

end LoxScript
