import LoxScript.Proofs.Scope.Complete
import LoxScript.Proofs.Tree.Lines
import Mathlib.Data.Option.Basic

/-!
# Resolution does not look at lines

A well-scoped program stays well scoped when its lines are changed, and well-scoped programs may stand one after the
other, because top-level code leaves no scope behind.
-/

namespace LoxScript

variable (f : Int → Int) {P : Context → Node Binding → Prop} {Γ : Context}

/-! ## Lines -/

theorem Stmt.declared?_mapLines {ρ : Type} (s : Stmt ρ) :
    (s.mapLines f).declared? = s.declared?.map (Name.mapLine f) := by
  cases s with
  | function d =>
      cases d
      rfl
  | _ => rfl

theorem Stmt.declared?_mapLines_eq_none {ρ : Type} {s : Stmt ρ} (h : s.declared? = none) :
    (s.mapLines f).declared? = none := by
  rw [s.declared?_mapLines, h]
  rfl

theorem FunctionContext.ofMethod_mapLines {ρ : Type} (d : FunctionDecl ρ) :
    FunctionContext.ofMethod (d.mapLines f) = .ofMethod d := by
  unfold FunctionContext.ofMethod
  rw [FunctionDecl.isInitializer_mapLines]

namespace Context

theorem after_mapLines {ρ : Type} (Γ : Context) (s : Stmt ρ) : Γ.after (s.mapLines f) = Γ.after s := by
  unfold after
  rw [Stmt.declared?_mapLines]
  cases s.declared? <;> rfl

theorem markAll_mapLine (Γ : Context) (names : List Name) :
    Γ.markAll (names.map (Name.mapLine f)) = Γ.markAll names := by
  unfold markAll
  rw [List.foldl_map]
  rfl

theorem MayDeclare.mapLine {n : Name} (h : Γ.MayDeclare n) : Γ.MayDeclare (n.mapLine f) :=
  ⟨h.identifier, h.fresh⟩

theorem MayDeclareAll.mapLine {names : List Name} (h : Γ.MayDeclareAll names) :
    Γ.MayDeclareAll (names.map (Name.mapLine f)) := by
  induction names generalizing Γ with
  | nil => trivial
  | cons n names ih => exact ⟨h.1.mapLine f, ih h.2⟩

theorem Reads.mapLine {n : Name} {ref : Binding} (h : Γ.Reads n ref) : Γ.Reads (n.mapLine f) ref :=
  ⟨h.passed, h.bound⟩

theorem ofDeclaration_mapLine {ρ : Type} (n : Name) (c : Option (Name × ρ)) :
    ClassContext.ofDeclaration (n.mapLine f) (c.map fun p => (p.1.mapLine f, p.2)) = .ofDeclaration n c := by
  cases c <;> rfl

end Context

theorem Expr.Scoped.mapLines {e : Expr Binding} (h : e.Scoped P Γ) : (e.mapLines f).Scoped Unlabelled Γ := by
  induction h with
  | literal => exact .literal trivial
  | grouping _ _ ih => exact .grouping trivial ih
  | unary _ _ ih => exact .unary trivial ih
  | binary _ _ _ iha ihb => exact .binary trivial iha ihb
  | logical _ _ _ iha ihb => exact .logical trivial iha ihb
  | var _ id reads => exact .var trivial id (reads.mapLine f)
  | assign _ id bound _ ih => exact .assign trivial id bound ih
  | call _ _ _ ih ihs =>
      refine .call trivial ih ?_
      rw [mapLinesAll_eq_map]
      exact List.forall_mem_map.2 ihs
  | get _ _ ih => exact .get trivial ih
  | set _ _ _ iho ihv => exact .set trivial iho ihv
  | this _ inside bound => exact .this trivial inside bound
  | super _ inside bound => exact .super trivial inside bound

mutual

theorem Stmt.Scoped.mapLines (s : Stmt Binding) {Γ : Context} (h : s.Scoped P Γ) :
    (s.mapLines f).Scoped Unlabelled Γ := by
  match s with
  | .expression e =>
      cases h with
      | expression _ h => exact .expression trivial (h.mapLines f)
  | .print e =>
      cases h with
      | print _ h => exact .print trivial (h.mapLines f)
  | .var n e =>
      cases h with
      | var _ may h => exact .var trivial (may.mapLine f) (Option.forall_mem_map.2 fun i hi => (h i hi).mapLines f)
  | .block b =>
      cases h with
      | block _ h => exact .block trivial (Stmts.Scoped.mapLines b h)
  | .function d =>
      cases h with
      | function _ may h =>
          have body := FunctionDecl.Scoped.mapLines d h
          refine .function trivial ?_ ?_
          · rw [d.name_mapLines]
            exact may.mapLine f
          · rw [d.name_mapLines]
            exact body
  | .classDecl n c ms =>
      cases h with
      | classDecl _ may super bodies =>
          have methods := FunctionDecl.Scoped.mapLinesAll ms bodies
          refine .classDecl trivial (may.mapLine f) (Option.forall_mem_map.2 fun p hp => ?_) ?_
          · obtain ⟨other, id, reads⟩ := super p hp
            exact ⟨other, id, reads.mapLine f⟩
          · rw [Context.ofDeclaration_mapLine, Option.isSome_map]
            exact methods
  | .ite c t e =>
      cases h with
      | ite _ hc plain ht plainElse he =>
          refine .ite trivial (hc.mapLines f) (Stmt.declared?_mapLines_eq_none f plain) (Stmt.Scoped.mapLines t ht) ?_ ?_
          · rw [Stmt.mapLines?_eq_map]
            exact Option.forall_mem_map.2 fun u hu => Stmt.declared?_mapLines_eq_none f (plainElse u hu)
          · exact Stmt.Scoped.mapLines? e he
  | .ret l e =>
      cases h with
      | ret _ inside value h =>
          refine .ret trivial inside (fun hs => value ?_) (Option.forall_mem_map.2 fun v hv => (h v hv).mapLines f)
          rwa [Option.isSome_map] at hs
  | .loop c b =>
      cases h with
      | loop _ hc plain hb =>
          exact .loop trivial (hc.mapLines f) (Stmt.declared?_mapLines_eq_none f plain) (Stmt.Scoped.mapLines b hb)

theorem FunctionDecl.Scoped.mapLines (d : FunctionDecl Binding) {kind : FunctionContext} {Γ : Context}
    (h : d.Scoped P kind Γ) : (d.mapLines f).Scoped Unlabelled kind Γ := by
  match d with
  | .mk n ps b =>
      cases h with
      | mk params h =>
          have body := Stmts.Scoped.mapLines b h
          refine .mk (params.mapLine f) ?_
          rw [Context.markAll_mapLine]
          exact body

theorem Stmts.Scoped.mapLines (ss : List (Stmt Binding)) {Γ : Context} (h : Stmts.Scoped P Γ ss) :
    Stmts.Scoped Unlabelled Γ (Stmt.mapLinesAll f ss) := by
  match ss with
  | [] => exact .nil
  | s :: ss =>
      cases h with
      | cons hs hss =>
          have rest := Stmts.Scoped.mapLines ss hss
          rw [← Γ.after_mapLines f] at rest
          exact .cons (Stmt.Scoped.mapLines s hs) rest

theorem Stmt.Scoped.mapLines? (s : Option (Stmt Binding)) {Γ : Context} (h : ∀ t ∈ s, Stmt.Scoped P Γ t) :
    ∀ t ∈ Stmt.mapLines? f s, t.Scoped Unlabelled Γ := by
  match s with
  | none => simp [Stmt.mapLines?]
  | some s =>
      rintro _ ⟨⟩
      exact Stmt.Scoped.mapLines s (h s rfl)

theorem FunctionDecl.Scoped.mapLinesAll (ds : List (FunctionDecl Binding)) {Γ : Context}
    (h : ∀ d ∈ ds, d.Scoped P (.ofMethod d) Γ) :
    ∀ d ∈ FunctionDecl.mapLinesAll f ds, d.Scoped Unlabelled (.ofMethod d) Γ := by
  match ds with
  | [] => simp [FunctionDecl.mapLinesAll]
  | d :: ds =>
      intro d' hd
      rcases List.mem_cons.1 hd with rfl | hd
      · rw [FunctionContext.ofMethod_mapLines]
        exact FunctionDecl.Scoped.mapLines d (h d List.mem_cons_self)
      · exact FunctionDecl.Scoped.mapLinesAll ds (fun d hd => h d (List.mem_cons_of_mem _ hd)) d' hd

end

/-- Code stays well scoped when its labels are left out. -/
theorem Stmt.Scoped.unlabelled {s : Stmt Binding} {Γ : Context} (h : s.Scoped P Γ) : s.Scoped Unlabelled Γ := by
  have kept := Stmt.Scoped.mapLines (f := id) s h
  rwa [Stmt.mapLines_id] at kept

/-! ## One program after the other -/

theorem Context.after_top {ρ : Type} (s : Stmt ρ) : Context.top.after s = .top := by
  unfold after
  cases s.declared? <;> rfl

theorem Stmts.Scoped.append {ss ss' : List (Stmt Binding)} (h : Stmts.Scoped P .top ss)
    (h' : Stmts.Scoped P .top ss') : Stmts.Scoped P .top (ss ++ ss') := by
  induction ss with
  | nil => exact h'
  | cons s ss ih =>
      cases h with
      | cons hs hss =>
          rw [Context.after_top] at hss
          have rest := ih hss
          rw [← Context.after_top s] at rest
          exact .cons hs rest

/-! ## Notes and lines -/

namespace Expr

variable {ρ : Type}

mutual

theorem forget_mapLines (e : Expr ρ) : (e.mapLines f).forget = e.forget.mapLines f := by
  cases e with
  | literal | var | this | super => rfl
  | grouping e | unary _ _ e | assign _ _ e | get e _ => simp [mapLines, forget, forget_mapLines e]
  | binary _ _ a b | logical _ _ a b | set a _ b => simp [mapLines, forget, forget_mapLines a, forget_mapLines b]
  | call e _ es => simp [mapLines, forget, forget_mapLines e, forgetAll_mapLinesAll es]

theorem forgetAll_mapLinesAll (es : List (Expr ρ)) : forgetAll (mapLinesAll f es) = mapLinesAll f (forgetAll es) := by
  cases es with
  | nil => rfl
  | cons e es => simp [mapLinesAll, forgetAll, forget_mapLines e, forgetAll_mapLinesAll es]

end

end Expr

section

variable {ρ : Type}

mutual

theorem Stmt.forget_mapLines (s : Stmt ρ) : (s.mapLines f).forget = s.forget.mapLines f := by
  cases s with
  | expression e | print e => simp [Stmt.mapLines, Stmt.forget, Expr.forget_mapLines]
  | var _ e | ret _ e => cases e <;> simp [Stmt.mapLines, Stmt.forget, Expr.forget_mapLines]
  | block ss => simp [Stmt.mapLines, Stmt.forget, Stmt.forgetAll_mapLinesAll ss]
  | function d => simp [Stmt.mapLines, Stmt.forget, FunctionDecl.forget_mapLines d]
  | classDecl _ c ds => cases c <;> simp [Stmt.mapLines, Stmt.forget, FunctionDecl.forgetAll_mapLinesAll ds]
  | ite _ t e =>
      simp [Stmt.mapLines, Stmt.forget, Expr.forget_mapLines, Stmt.forget_mapLines t, Stmt.forget?_mapLines? e]
  | loop _ b => simp [Stmt.mapLines, Stmt.forget, Expr.forget_mapLines, Stmt.forget_mapLines b]

theorem FunctionDecl.forget_mapLines (d : FunctionDecl ρ) : (d.mapLines f).forget = d.forget.mapLines f := by
  cases d with
  | mk n ps b => simp [FunctionDecl.mapLines, FunctionDecl.forget, Stmt.forgetAll_mapLinesAll b]

theorem Stmt.forgetAll_mapLinesAll (ss : List (Stmt ρ)) :
    Stmt.forgetAll (Stmt.mapLinesAll f ss) = Stmt.mapLinesAll f (Stmt.forgetAll ss) := by
  cases ss with
  | nil => rfl
  | cons s ss => simp [Stmt.mapLinesAll, Stmt.forgetAll, Stmt.forget_mapLines s, Stmt.forgetAll_mapLinesAll ss]

theorem Stmt.forget?_mapLines? (s : Option (Stmt ρ)) :
    Stmt.forget? (Stmt.mapLines? f s) = Stmt.mapLines? f (Stmt.forget? s) := by
  cases s with
  | none => rfl
  | some s => simp [Stmt.mapLines?, Stmt.forget?, Stmt.forget_mapLines s]

theorem FunctionDecl.forgetAll_mapLinesAll (ds : List (FunctionDecl ρ)) :
    FunctionDecl.forgetAll (FunctionDecl.mapLinesAll f ds) = FunctionDecl.mapLinesAll f (FunctionDecl.forgetAll ds) := by
  cases ds with
  | nil => rfl
  | cons d ds =>
      simp [FunctionDecl.mapLinesAll, FunctionDecl.forgetAll, FunctionDecl.forget_mapLines d,
        FunctionDecl.forgetAll_mapLinesAll ds]

end

end

end LoxScript
