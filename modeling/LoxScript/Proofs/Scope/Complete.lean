import LoxScript.Proofs.Scope.Sound

/-!
# Resolution is complete

A well-scoped program is what resolution makes of it once its notes are forgotten, and no error is found on the
way. Resolution in turn changes nothing but the notes.
-/

namespace LoxScript

variable {P : Context → Node Binding → Prop} {Γ Γ₁ Γ₂ : Context} {α β : Type}

namespace Resolver

/-- In the surroundings `Γ`, resolution gives `a` without an error and leaves the surroundings `Γ₁`. -/
def Gives (r : Resolver α) (Γ : Context) (a : α) (Γ₁ : Context) : Prop :=
  ∀ s : ScopeState, s.context = Γ → (r s).1 = a ∧ (r s).2.context = Γ₁ ∧ (r s).2.errors = s.errors

namespace Gives

theorem pure (a : α) (Γ : Context) : Gives (Pure.pure a) Γ a Γ :=
  fun _ hs => ⟨rfl, hs, rfl⟩

theorem bind {r : Resolver α} {f : α → Resolver β} {a : α} {b : β} (h : Gives r Γ a Γ₁)
    (h' : Gives (f a) Γ₁ b Γ₂) : Gives (r >>= f) Γ b Γ₂ := by
  intro s hs
  obtain ⟨made, context, errors⟩ := h s hs
  obtain ⟨made', context', errors'⟩ := h' (r s).2 context
  rw [bind_apply, made]
  exact ⟨made', context', errors'.trans errors⟩

/-- One more piece of work on a result. -/
theorem map {r : Resolver α} {a : α} (h : Gives r Γ a Γ₁) (f : α → β) :
    Gives (do return f (← r)) Γ (f a) Γ₁ :=
  h.bind (.pure _ _)

theorem inScope {scope : Scope} {body : Resolver α} {a : α} (h : Gives body (Γ.push scope) a Γ₁) :
    Gives (Resolver.inScope scope body) Γ a Γ₁.pop := by
  rintro s rfl
  obtain ⟨made, context, errors⟩ := h (s.push scope) rfl
  rw [inScope_apply]
  refine ⟨made, ?_, errors⟩
  rw [ScopeState.context_pop, context]

theorem inFunction {kind : FunctionContext} {body : Resolver α} {a : α}
    (h : Gives body { Γ with function := kind } a { Γ with function := kind }) :
    Gives (Resolver.inFunction kind body) Γ a Γ := by
  rintro s rfl
  obtain ⟨made, context, errors⟩ := h { s with function := kind } rfl
  rw [inFunction_apply]
  refine ⟨made, ?_, errors⟩
  unfold ScopeState.context at context ⊢
  simp only [Context.mk.injEq] at context ⊢
  exact ⟨context.1, trivial, context.2.2⟩

theorem inClass {kind : ClassContext} {body : Resolver α} {a : α}
    (h : Gives body { Γ with classContext := kind } a { Γ with classContext := kind }) :
    Gives (Resolver.inClass kind body) Γ a Γ := by
  rintro s rfl
  obtain ⟨made, context, errors⟩ := h { s with classContext := kind } rfl
  rw [inClass_apply]
  refine ⟨made, ?_, errors⟩
  unfold ScopeState.context at context ⊢
  simp only [Context.mk.injEq] at context ⊢
  exact ⟨context.1, context.2.1, trivial⟩

end Gives

/-! ## References and declarations that are in order -/

theorem bind_gives (form : ReferenceForm) (name : Name) (Γ : Context) :
    Gives (Resolver.bind form name) Γ (.ofScopes name.text Γ.scopes) Γ := by
  rintro s rfl
  rw [bind_eq]
  exact ⟨rfl, ScopeState.context_record _ _ _ _, ScopeState.errors_record _ _ _ _⟩

theorem bindVariable_gives {name : Name} {ref : Binding} (h : Γ.Reads name ref) :
    Gives (bindVariable name) Γ ref Γ := by
  rintro s rfl
  rw [bindVariable_of_passed h.passed]
  exact ⟨h.bound.symm, ScopeState.context_record _ _ _ _, ScopeState.errors_record _ _ _ _⟩

theorem bindThis_gives (line : Int) (h : Γ.classContext ≠ .outside) :
    Gives (bindThis line) Γ (.ofScopes Keyword.thisWord.text Γ.scopes) Γ := by
  intro s hs
  have bound := bind_gives .this ⟨Keyword.thisWord.text, line⟩ Γ s hs
  subst hs
  obtain ⟨_, _, kind, _, _⟩ := s
  cases kind with
  | outside => exact absurd rfl h
  | base | derived => exact bound

theorem bindSuper_gives (line : Int) (h : Γ.classContext = .derived) :
    Gives (bindSuper line) Γ (.ofScopes Keyword.superWord.text Γ.scopes) Γ := by
  intro s hs
  have bound := bind_gives .super ⟨Keyword.superWord.text, line⟩ Γ s hs
  subst hs
  obtain ⟨_, _, kind, _, _⟩ := s
  cases kind with
  | derived => exact bound
  | outside | base => cases h

theorem bindSuperclass_gives {name : Name} {superclass : Name × Binding} (hne : superclass.1.text ≠ name.text)
    (h : Γ.Reads superclass.1 superclass.2) :
    Gives (bindSuperclass name (superclass.1, ())) Γ superclass Γ := by
  unfold bindSuperclass
  rw [if_neg hne]
  exact (bindVariable_gives h).map fun ref => (superclass.1, ref)

theorem checkReturn_gives (line : Int) {hasValue : Bool} (h : Γ.function ≠ .outside)
    (hv : hasValue → Γ.function ≠ .initializer) : Gives (checkReturn line hasValue) Γ () Γ := by
  rintro s rfl
  obtain ⟨_, kind, _, _, _⟩ := s
  cases kind with
  | outside => exact absurd rfl h
  | function | method => cases hasValue <;> exact ⟨rfl, rfl, rfl⟩
  | initializer =>
      cases hasValue with
      | false => exact ⟨rfl, rfl, rfl⟩
      | true => exact absurd rfl (hv rfl)

theorem declare_gives {name : Name} (h : Γ.MayDeclare name) :
    Gives (declare name) Γ () (Γ.mark name.text false) := by
  rintro s rfl
  rw [declare_of_fresh h.fresh]
  exact ⟨rfl, ScopeState.context_mark _ _ _, rfl⟩

theorem define_gives (name : Name) (Γ : Context) : Gives (define name) Γ () (Γ.mark name.text true) := by
  rintro s rfl
  rw [define_apply]
  exact ⟨rfl, ScopeState.context_mark _ _ _, rfl⟩

theorem declareAndDefine_gives {name : Name} (h : Γ.MayDeclare name) :
    Gives (declareAndDefine name) Γ () (Γ.mark name.text true) := by
  have defined := define_gives name (Γ.mark name.text false)
  rw [Context.mark_mark] at defined
  exact (declare_gives h).bind defined

theorem parameters_gives {names : List Name} (h : Γ.MayDeclareAll names) :
    Gives (names.forM declareAndDefine) Γ () (Γ.markAll names) := by
  induction names generalizing Γ with
  | nil => exact .pure () Γ
  | cons name names ih => exact (declareAndDefine_gives h.1).bind (ih h.2)

theorem inClassScopes_gives {body : Resolver α} {a : α} {kind : ClassContext} {hasSuperclass : Bool}
    (h : Gives body (Γ.inClass kind hasSuperclass) a (Γ.inClass kind hasSuperclass)) :
    Gives (inClass kind (inClassScopes hasSuperclass body)) Γ a Γ := by
  refine .inClass ?_
  cases hasSuperclass with
  | false => exact .inScope h
  | true => exact .inScope (.inScope h)

end Resolver

open Resolver

/-! ## Expressions -/

mutual

theorem Expr.resolve_forget (e : Expr Binding) (h : e.Scoped P Γ) : Gives e.forget.resolve Γ e Γ := by
  match e with
  | .literal v => exact .pure _ Γ
  | .grouping e =>
      cases h with
      | grouping _ h => exact (e.resolve_forget h).map _
  | .unary op l e =>
      cases h with
      | unary _ h => exact (e.resolve_forget h).map _
  | .binary op l a b =>
      cases h with
      | binary _ ha hb => exact (a.resolve_forget ha).bind ((b.resolve_forget hb).map _)
  | .logical op l a b =>
      cases h with
      | logical _ ha hb => exact (a.resolve_forget ha).bind ((b.resolve_forget hb).map _)
  | .var n ref =>
      cases h with
      | var _ _ reads => exact (bindVariable_gives reads).map _
  | .assign n ref v =>
      cases h with
      | assign _ _ bound hv =>
          subst bound
          exact (v.resolve_forget hv).bind ((bind_gives .assign n Γ).map fun ref => Expr.assign n ref v)
  | .call f l es =>
      cases h with
      | call _ hf hes => exact (f.resolve_forget hf).bind ((Expr.resolveAll_forget es hes).map _)
  | .get e n =>
      cases h with
      | get _ h => exact (e.resolve_forget h).map (Expr.get · n)
  | .set e n v =>
      cases h with
      | set _ he hv => exact (v.resolve_forget hv).bind ((e.resolve_forget he).map (Expr.set · n v))
  | .this l ref =>
      cases h with
      | this _ inside bound =>
          subst bound
          exact (bindThis_gives l inside).map _
  | .super l m ref =>
      cases h with
      | super _ inside bound =>
          subst bound
          exact (bindSuper_gives l inside).map _

theorem Expr.resolveAll_forget (es : List (Expr Binding)) (h : ∀ e ∈ es, e.Scoped P Γ) :
    Gives (Expr.resolveAll (Expr.forgetAll es)) Γ es Γ := by
  match es with
  | [] => exact .pure _ Γ
  | e :: es =>
      have rest := Expr.resolveAll_forget es fun e' he' => h e' (List.mem_cons_of_mem _ he')
      exact (e.resolve_forget (h e List.mem_cons_self)).bind (rest.map _)

end

theorem Expr.resolve?_forget {e : Option (Expr Binding)} (h : ∀ v ∈ e, v.Scoped P Γ) :
    Gives (Expr.resolve? (e.map Expr.forget)) Γ e Γ := by
  cases e with
  | none => exact .pure _ Γ
  | some e => exact (e.resolve_forget (h e rfl)).map some

/-! ## Statements -/

theorem FunctionDecl.ofMethod_forget (d : FunctionDecl Binding) :
    FunctionContext.ofMethod d.forget = .ofMethod d := by
  cases d
  rfl

mutual

theorem Stmt.resolve_forget (t : Stmt Binding) {Γ : Context} (h : t.Scoped P Γ) :
    Gives t.forget.resolve Γ t (Γ.after t) := by
  match t with
  | .expression e =>
      cases h with
      | expression _ h => exact (e.resolve_forget h).map _
  | .print e =>
      cases h with
      | print _ h => exact (e.resolve_forget h).map _
  | .var n e =>
      cases h with
      | var _ hn h =>
          have defined := define_gives n (Γ.mark n.text false)
          rw [Context.mark_mark] at defined
          exact (declare_gives hn).bind ((Expr.resolve?_forget h).bind (defined.bind (.pure _ _)))
  | .block b =>
      cases h with
      | block _ h =>
          have body := (Stmt.resolveAll_forget b h).inScope
          rw [Context.pop_afterAll, Context.pop_push] at body
          exact body.map _
  | .function (.mk n ps b) =>
      cases h with
      | function _ hn h =>
          exact (declareAndDefine_gives hn).bind ((FunctionDecl.resolve_forget (.mk n ps b) h).map _)
  | .classDecl n c ms =>
      cases h with
      | classDecl _ hn hc hms =>
          have methods := inClassScopes_gives (FunctionDecl.resolveMethods_forget ms hms)
          refine (declareAndDefine_gives hn).bind ?_
          cases c with
          | none => exact methods.map _
          | some p =>
              obtain ⟨hne, _, reads⟩ := hc p rfl
              exact ((bindSuperclass_gives hne reads).map some).bind (methods.map _)
  | .ite c t e =>
      cases h with
      | ite _ hc ht h he h' =>
          have taken := Stmt.resolve_forget t h
          rw [Context.after_of_declared Γ ht] at taken
          exact (c.resolve_forget hc).bind (taken.bind ((Stmt.resolve?_forget e he h').map _))
  | .ret l e =>
      cases h with
      | ret _ hr hv h =>
          have value : (e.map Expr.forget).isSome → Γ.function ≠ .initializer := by
            rw [Option.isSome_map]
            exact hv
          have whole : Gives (do
              checkReturn l (e.map Expr.forget).isSome
              return .ret l (← Expr.resolve? (e.map Expr.forget))) Γ (Stmt.ret l e) Γ :=
            (checkReturn_gives l hr value).bind ((Expr.resolve?_forget h).map _)
          intro s hs
          rw [Stmt.forget, Stmt.resolve_ret]
          exact whole s hs
  | .loop c b =>
      cases h with
      | loop _ hc hb h =>
          have body := Stmt.resolve_forget b h
          rw [Context.after_of_declared Γ hb] at body
          exact (c.resolve_forget hc).bind (body.map _)

theorem FunctionDecl.resolve_forget (d : FunctionDecl Binding) {kind : FunctionContext} {Γ : Context}
    (h : d.Scoped P kind Γ) :
    Gives (d.forget.resolve kind) Γ d Γ := by
  match d with
  | .mk n ps b =>
      cases h with
      | mk hps h =>
          have body : Gives (do
              ps.forM declareAndDefine
              Stmt.resolveAll (Stmt.forgetAll b)) (Context.push { Γ with function := kind } .empty) b _ :=
            (parameters_gives hps).bind (Stmt.resolveAll_forget b h)
          have inside := body.inScope
          rw [Context.pop_afterAll, Context.pop_markAll] at inside
          exact (Gives.inFunction inside).map _

theorem Stmt.resolveAll_forget (ts : List (Stmt Binding)) {Γ : Context} (h : Stmts.Scoped P Γ ts) :
    Gives (Stmt.resolveAll (Stmt.forgetAll ts)) Γ ts (Γ.afterAll ts) := by
  match ts with
  | [] => exact .pure _ Γ
  | t :: ts =>
      cases h with
      | cons h hs => exact (Stmt.resolve_forget t h).bind ((Stmt.resolveAll_forget ts hs).map _)

theorem Stmt.resolve?_forget (t : Option (Stmt Binding)) {Γ : Context} (hd : ∀ u ∈ t, u.declared? = none)
    (h : ∀ u ∈ t, u.Scoped P Γ) : Gives (Stmt.resolve? (Stmt.forget? t)) Γ t Γ := by
  match t with
  | none => exact .pure _ Γ
  | some t =>
      have made := Stmt.resolve_forget t (h t rfl)
      rw [Context.after_of_declared Γ (hd t rfl)] at made
      exact made.map some

theorem FunctionDecl.resolveMethods_forget (ds : List (FunctionDecl Binding)) {Γ : Context}
    (h : ∀ d ∈ ds, d.Scoped P (.ofMethod d) Γ) :
    Gives (FunctionDecl.resolveMethods (FunctionDecl.forgetAll ds)) Γ ds Γ := by
  match ds with
  | [] => exact .pure _ Γ
  | d :: ds =>
      have first := FunctionDecl.resolve_forget d (h d List.mem_cons_self)
      have rest := FunctionDecl.resolveMethods_forget ds fun d' hd' => h d' (List.mem_cons_of_mem _ hd')
      rw [← d.ofMethod_forget] at first
      exact first.bind (rest.map _)

end

/-- A well-scoped program is accepted, and resolution gives back its notes. -/
theorem Stmt.resolveProgram_forget {program : List (Stmt Binding)} (h : Stmts.Scoped P .top program) :
    (Stmt.resolveProgram (Stmt.forgetAll program)).value = program ∧
      (Stmt.resolveProgram (Stmt.forgetAll program)).errors = [] := by
  obtain ⟨made, _, errors⟩ := Stmt.resolveAll_forget program h Resolver.start rfl
  exact ⟨made, congrArg Array.toList errors⟩

/-! ## Resolution changes nothing but the notes -/

mutual

theorem Expr.forget_resolve (e : Expr Unit) (s : ScopeState) : (e.resolve s).1.forget = e := by
  match e with
  | .literal v | .var n _ | .this l _ | .super l m _ => rfl
  | .grouping e => exact congrArg Expr.grouping (e.forget_resolve s)
  | .unary op l e => exact congrArg (Expr.unary op l) (e.forget_resolve s)
  | .binary op l a b =>
      show Expr.binary op l (a.resolve s).1.forget (b.resolve (a.resolve s).2).1.forget = _
      rw [a.forget_resolve, b.forget_resolve]
  | .logical op l a b =>
      show Expr.logical op l (a.resolve s).1.forget (b.resolve (a.resolve s).2).1.forget = _
      rw [a.forget_resolve, b.forget_resolve]
  | .assign n _ v => exact congrArg (Expr.assign n ()) (v.forget_resolve s)
  | .call f l es =>
      show Expr.call (f.resolve s).1.forget l (Expr.forgetAll (Expr.resolveAll es (f.resolve s).2).1) = _
      rw [f.forget_resolve, Expr.forgetAll_resolveAll]
  | .get e n => exact congrArg (Expr.get · n) (e.forget_resolve s)
  | .set e n v =>
      show Expr.set (e.resolve (v.resolve s).2).1.forget n (v.resolve s).1.forget = _
      rw [e.forget_resolve, v.forget_resolve]

theorem Expr.forgetAll_resolveAll (es : List (Expr Unit)) (s : ScopeState) :
    Expr.forgetAll (Expr.resolveAll es s).1 = es := by
  match es with
  | [] => rfl
  | e :: es =>
      show (e.resolve s).1.forget :: Expr.forgetAll (Expr.resolveAll es (e.resolve s).2).1 = _
      rw [e.forget_resolve, Expr.forgetAll_resolveAll]

end

theorem Expr.forget_resolve? (e : Option (Expr Unit)) (s : ScopeState) :
    (Expr.resolve? e s).1.map Expr.forget = e := by
  cases e with
  | none => rfl
  | some e => exact congrArg some (e.forget_resolve s)

mutual

theorem Stmt.forget_resolve (t : Stmt Unit) (s : ScopeState) : (t.resolve s).1.forget = t := by
  match t with
  | .expression e => exact congrArg Stmt.expression (e.forget_resolve s)
  | .print e => exact congrArg Stmt.print (e.forget_resolve s)
  | .var n e => exact congrArg (Stmt.var n) (Expr.forget_resolve? e (declare n s).2)
  | .block b => exact congrArg Stmt.block (Stmt.forgetAll_resolveAll b (s.push .empty))
  | .function d => exact congrArg Stmt.function (FunctionDecl.forget_resolve d .function (declareAndDefine d.name s).2)
  | .classDecl n none ms => exact congrArg (Stmt.classDecl n none) (FunctionDecl.forgetAll_resolveMethods ms _)
  | .classDecl n (some p) ms =>
      have kept : (bindSuperclass n p (declareAndDefine n s).2).1.1 = p.1 := by
        unfold bindSuperclass
        split <;> rfl
      show Stmt.classDecl n (some ((bindSuperclass n p (declareAndDefine n s).2).1.1, ()))
        (FunctionDecl.forgetAll (FunctionDecl.resolveMethods ms _).1) = _
      rw [kept, FunctionDecl.forgetAll_resolveMethods]
  | .ite c t e =>
      show Stmt.ite (c.resolve s).1.forget (t.resolve (c.resolve s).2).1.forget
        (Stmt.forget? (Stmt.resolve? e (t.resolve (c.resolve s).2).2).1) = _
      rw [c.forget_resolve, Stmt.forget_resolve, Stmt.forget_resolve?]
  | .ret l e =>
      rw [Stmt.resolve_ret]
      exact congrArg (Stmt.ret l) (Expr.forget_resolve? e _)
  | .loop c b =>
      show Stmt.loop (c.resolve s).1.forget (b.resolve (c.resolve s).2).1.forget = _
      rw [c.forget_resolve, Stmt.forget_resolve]

theorem FunctionDecl.forget_resolve (d : FunctionDecl Unit) (kind : FunctionContext) (s : ScopeState) :
    (d.resolve kind s).1.forget = d := by
  match d with
  | .mk n ps b => exact congrArg (FunctionDecl.mk n ps) (Stmt.forgetAll_resolveAll b _)

theorem Stmt.forgetAll_resolveAll (ts : List (Stmt Unit)) (s : ScopeState) :
    Stmt.forgetAll (Stmt.resolveAll ts s).1 = ts := by
  match ts with
  | [] => rfl
  | t :: ts =>
      show (t.resolve s).1.forget :: Stmt.forgetAll (Stmt.resolveAll ts (t.resolve s).2).1 = _
      rw [Stmt.forget_resolve, Stmt.forgetAll_resolveAll]

theorem Stmt.forget_resolve? (t : Option (Stmt Unit)) (s : ScopeState) :
    Stmt.forget? (Stmt.resolve? t s).1 = t := by
  match t with
  | none => rfl
  | some t => exact congrArg some (Stmt.forget_resolve t s)

theorem FunctionDecl.forgetAll_resolveMethods (ds : List (FunctionDecl Unit)) (s : ScopeState) :
    FunctionDecl.forgetAll (FunctionDecl.resolveMethods ds s).1 = ds := by
  match ds with
  | [] => rfl
  | d :: ds =>
      show (d.resolve (.ofMethod d) s).1.forget ::
        FunctionDecl.forgetAll (FunctionDecl.resolveMethods ds (d.resolve (.ofMethod d) s).2).1 = _
      rw [FunctionDecl.forget_resolve, FunctionDecl.forgetAll_resolveMethods]

end

theorem Stmt.forgetAll_resolveProgram (program : List (Stmt Unit)) :
    Stmt.forgetAll (Stmt.resolveProgram program).value = program :=
  Stmt.forgetAll_resolveAll program Resolver.start

end LoxScript
