import LoxScript.Proofs.Scope.Context

/-!
# The visits of resolution

Resolution works on one piece of a program after another, each with the state that the pieces before it have
left. `Task.parts` reads off these states: for each function of the resolver, the calls that it makes.
-/

namespace LoxScript

namespace ScopeState

def push (s : ScopeState) (scope : Scope) : ScopeState :=
  { s with scopes := scope :: s.scopes }

def pop (s : ScopeState) : ScopeState :=
  { s with scopes := s.scopes.tail }

def mark (s : ScopeState) (name : String) (passed : Bool) : ScopeState :=
  { s with scopes := (s.context.mark name passed).scopes }

def record (s : ScopeState) (form : ReferenceForm) (name : Name) : Binding → ScopeState
  | .global => s
  | .scoped distance => { s with references := s.references.push ⟨form, name, distance⟩ }

@[simp] theorem context_push (s : ScopeState) (scope : Scope) : (s.push scope).context = s.context.push scope := rfl

@[simp] theorem context_pop (s : ScopeState) : s.pop.context = s.context.pop := rfl

@[simp] theorem context_mark (s : ScopeState) (name : String) (passed : Bool) :
    (s.mark name passed).context = s.context.mark name passed := by
  obtain ⟨scopes, _, _, _, _⟩ := s
  cases scopes with
  | nil => rfl
  | cons scope outer => rfl

@[simp] theorem errors_mark (s : ScopeState) (name : String) (passed : Bool) :
    (s.mark name passed).errors = s.errors := rfl

@[simp] theorem mark_mark (s : ScopeState) (name : String) (passed passed' : Bool) :
    (s.mark name passed).mark name passed' = s.mark name passed' := by
  have scopes : ((s.mark name passed).context.mark name passed').scopes = (s.context.mark name passed').scopes := by
    rw [context_mark, Context.mark_mark]
  unfold mark at scopes ⊢
  simp only [scopes]

@[simp] theorem context_record (s : ScopeState) (form : ReferenceForm) (name : Name) (ref : Binding) :
    (s.record form name ref).context = s.context := by
  cases ref <;> rfl

@[simp] theorem errors_record (s : ScopeState) (form : ReferenceForm) (name : Name) (ref : Binding) :
    (s.record form name ref).errors = s.errors := by
  cases ref <;> rfl

/-- A state that resolution comes to later, with the given surroundings. Errors are only ever added. -/
structure Leads (s : ScopeState) (Γ : Context) (s' : ScopeState) : Prop where
  context : s'.context = Γ
  errors : s.errors.size ≤ s'.errors.size

theorem Leads.trans {s₁ s₂ s₃ : ScopeState} {Γ Γ' : Context} (h : s₁.Leads Γ s₂) (h' : s₂.Leads Γ' s₃) :
    s₁.Leads Γ' s₃ :=
  ⟨h'.context, Nat.le_trans h.errors h'.errors⟩

theorem Leads.refl (s : ScopeState) : s.Leads s.context s :=
  ⟨rfl, Nat.le_refl _⟩

/-- Work without an error has parts without errors. -/
theorem Leads.quiet {s₁ s₂ s₃ : ScopeState} {Γ Γ' : Context} (h : s₁.Leads Γ s₂) (h' : s₂.Leads Γ' s₃)
    (quiet : s₃.errors.size = s₁.errors.size) :
    s₂.errors.size = s₁.errors.size ∧ s₃.errors.size = s₂.errors.size := by
  have := h.errors
  have := h'.errors
  omega

/-- Two pieces of work that both leave the surroundings as they are. -/
theorem Leads.andThen {s₁ s₂ s₃ : ScopeState} (h : s₁.Leads s₁.context s₂) (h' : s₂.Leads s₂.context s₃) :
    s₁.Leads s₁.context s₃ :=
  ⟨h'.context.trans h.context, Nat.le_trans h.errors h'.errors⟩

structure Reports (s : ScopeState) (Γ : Context) (s' : ScopeState) : Prop where
  context : s'.context = Γ
  errors : s.errors.size < s'.errors.size

theorem Reports.leads {s s' : ScopeState} {Γ : Context} (h : s.Reports Γ s') : s.Leads Γ s' :=
  ⟨h.context, Nat.le_of_lt h.errors⟩

theorem Reports.not_quiet {s s' : ScopeState} {Γ : Context} (h : s.Reports Γ s')
    (quiet : s'.errors.size = s.errors.size) : False :=
  Nat.ne_of_gt h.errors quiet

end ScopeState

namespace Resolver

variable {α β : Type}

/-! ## What the operations of the resolver do -/

theorem bind_apply (x : Resolver α) (f : α → Resolver β) (s : ScopeState) :
    (x >>= f) s = f (x s).1 (x s).2 := rfl

theorem inScope_apply (scope : Scope) (body : Resolver α) (s : ScopeState) :
    inScope scope body s = ((body (s.push scope)).1, (body (s.push scope)).2.pop) := rfl

theorem inFunction_apply (kind : FunctionContext) (body : Resolver α) (s : ScopeState) :
    inFunction kind body s = ((body { s with function := kind }).1,
      { (body { s with function := kind }).2 with function := s.function }) := rfl

theorem inClass_apply (kind : ClassContext) (body : Resolver α) (s : ScopeState) :
    inClass kind body s = ((body { s with classContext := kind }).1,
      { (body { s with classContext := kind }).2 with classContext := s.classContext }) := rfl

theorem get_bind {α : Type} (k : ScopeState → Resolver α) (s : ScopeState) :
    ((get : Resolver ScopeState) >>= k) s = k s s := rfl

theorem bind_eq (form : ReferenceForm) (name : Name) (s : ScopeState) :
    Resolver.bind form name s =
      (.ofScopes name.text s.scopes, s.record form name (.ofScopes name.text s.scopes)) := by
  unfold Resolver.bind Binding.ofScopes
  rw [get_bind]
  cases distance? name.text s.scopes with
  | none => rfl
  | some d => rfl

theorem bind_leads (form : ReferenceForm) (name : Name) (s : ScopeState) :
    s.Leads s.context (Resolver.bind form name s).2 := by
  rw [bind_eq]
  exact ⟨ScopeState.context_record _ _ _ _, by simp⟩

theorem reportAt_apply (name : Name) (cause : ScopeError) (s : ScopeState) :
    reportAt name cause s =
      ((), { s with errors := s.errors.push ⟨cause, name.line, .atLexeme name.text⟩ }) := rfl

theorem reportAt_reports (name : Name) (cause : ScopeError) (s : ScopeState) :
    s.Reports s.context (reportAt name cause s).2 := by
  rw [reportAt_apply]
  exact ⟨rfl, by simp⟩

/-- A reference is tied after an error as well. -/
theorem bind_reports (form : ReferenceForm) (name name' : Name) (cause : ScopeError) (s : ScopeState) :
    s.Reports s.context (Resolver.bind form name (reportAt name' cause s).2).2 := by
  have reported := reportAt_reports name' cause s
  have led := bind_leads form name (reportAt name' cause s).2
  exact ⟨led.context.trans reported.context, Nat.lt_of_lt_of_le reported.errors led.errors⟩

theorem setInnermost_apply (name : String) (passed : Bool) (s : ScopeState) :
    setInnermost name passed s = ((), s.mark name passed) := by
  obtain ⟨scopes, _, _, _, _⟩ := s
  cases scopes with
  | nil => rfl
  | cons scope outer => rfl

theorem declare_eq (name : Name) (s : ScopeState) :
    declare name s = (match s.scopes with
      | [] => return ()
      | scope :: _ => do
          if scope.contains name.text then
            reportAt name .alreadyDeclared
          setInnermost name.text false : Resolver Unit) s := rfl

theorem declare_of_fresh {name : Name} {s : ScopeState}
    (h : ∀ scope ∈ s.scopes.head?, scope.contains name.text = false) :
    declare name s = ((), s.mark name.text false) := by
  rw [declare_eq]
  obtain ⟨scopes, _, _, _, _⟩ := s
  cases scopes with
  | nil => rfl
  | cons scope outer =>
      have fresh : scope.contains name.text = false := h scope rfl
      dsimp only
      rw [fresh]
      exact setInnermost_apply name.text false _

/-- A declaration is in order, or else it is reported and takes place all the same. -/
theorem declare_cases (name : Name) (s : ScopeState) :
    ((∀ scope ∈ s.scopes.head?, scope.contains name.text = false) ∧
      declare name s = ((), s.mark name.text false)) ∨
    s.Reports (s.context.mark name.text false) (declare name s).2 := by
  by_cases h : ∀ scope ∈ s.scopes.head?, scope.contains name.text = false
  · exact .inl ⟨h, declare_of_fresh h⟩
  · refine .inr ?_
    rw [declare_eq]
    cases hs : s.scopes with
    | nil => simp [hs] at h
    | cons scope outer =>
        simp only [hs, List.head?_cons, Option.mem_some_iff, forall_eq', Bool.not_eq_false] at h
        dsimp only
        rw [h]
        show s.Reports _ (setInnermost name.text false (reportAt name .alreadyDeclared s).2).2
        rw [setInnermost_apply, reportAt_apply]
        exact ⟨ScopeState.context_mark _ _ _, by simp⟩

theorem declare_leads (name : Name) (s : ScopeState) :
    s.Leads (s.context.mark name.text false) (declare name s).2 := by
  rcases declare_cases name s with ⟨_, h⟩ | h
  · rw [h]
    exact ⟨ScopeState.context_mark _ _ _, Nat.le_refl _⟩
  · exact h.leads

theorem define_apply (name : Name) (s : ScopeState) : define name s = ((), s.mark name.text true) :=
  setInnermost_apply name.text true s

theorem declareAndDefine_apply (name : Name) (s : ScopeState) :
    declareAndDefine name s = ((), (declare name s).2.mark name.text true) :=
  define_apply name (declare name s).2

theorem declareAndDefine_of_fresh {name : Name} {s : ScopeState}
    (h : ∀ scope ∈ s.scopes.head?, scope.contains name.text = false) :
    declareAndDefine name s = ((), s.mark name.text true) := by
  rw [declareAndDefine_apply, declare_of_fresh h, ScopeState.mark_mark]

theorem declareAndDefine_cases (name : Name) (s : ScopeState) :
    ((∀ scope ∈ s.scopes.head?, scope.contains name.text = false) ∧
      declareAndDefine name s = ((), s.mark name.text true)) ∨
    s.Reports (s.context.mark name.text true) (declareAndDefine name s).2 := by
  rcases declare_cases name s with ⟨hfresh, _⟩ | h
  · exact .inl ⟨hfresh, declareAndDefine_of_fresh hfresh⟩
  · rw [declareAndDefine_apply]
    refine .inr ⟨?_, h.errors⟩
    rw [ScopeState.context_mark, h.context, Context.mark_mark]

theorem declareAndDefine_leads (name : Name) (s : ScopeState) :
    s.Leads (s.context.mark name.text true) (declareAndDefine name s).2 := by
  rcases declareAndDefine_cases name s with ⟨_, h⟩ | h
  · rw [h]
    exact ⟨ScopeState.context_mark _ _ _, Nat.le_refl _⟩
  · exact h.leads

theorem bindVariable_eq (name : Name) (s : ScopeState) :
    bindVariable name s = (do
      if (s.scopes.head?.bind fun scope => scope.find? name.text) = some false then
        reportAt name .ownInitializer
      Resolver.bind .var name : Resolver Binding) s := rfl

theorem bindVariable_of_passed {name : Name} {s : ScopeState}
    (h : (s.scopes.head?.bind fun scope => scope.find? name.text) ≠ some false) :
    bindVariable name s =
      (.ofScopes name.text s.scopes, s.record .var name (.ofScopes name.text s.scopes)) := by
  rw [bindVariable_eq, if_neg h]
  exact bind_eq .var name s

theorem bindVariable_cases (name : Name) (s : ScopeState) :
    (s.context.Reads name (.ofScopes name.text s.scopes) ∧ bindVariable name s =
      (.ofScopes name.text s.scopes, s.record .var name (.ofScopes name.text s.scopes))) ∨
    s.Reports s.context (bindVariable name s).2 := by
  by_cases h : (s.scopes.head?.bind fun scope => scope.find? name.text) = some false
  · rw [bindVariable_eq, if_pos h]
    exact .inr (bind_reports .var name name .ownInitializer s)
  · exact .inl ⟨⟨h, rfl⟩, bindVariable_of_passed h⟩

theorem bindVariable_leads (name : Name) (s : ScopeState) :
    s.Leads s.context (bindVariable name s).2 := by
  rcases bindVariable_cases name s with ⟨_, h⟩ | h
  · rw [h]
    exact ⟨ScopeState.context_record _ _ _ _, by simp⟩
  · exact h.leads

theorem bindThis_cases (line : Int) (s : ScopeState) :
    (s.classContext ≠ .outside ∧ bindThis line s =
      (.ofScopes Keyword.thisWord.text s.scopes,
        s.record .this ⟨Keyword.thisWord.text, line⟩ (.ofScopes Keyword.thisWord.text s.scopes))) ∨
    s.Reports s.context (bindThis line s).2 := by
  unfold bindThis
  rw [get_bind]
  cases h : s.classContext with
  | outside => exact .inr (reportAt_reports _ _ s)
  | base => exact .inl ⟨by simp, bind_eq _ _ _⟩
  | derived => exact .inl ⟨by simp, bind_eq _ _ _⟩

theorem bindThis_leads (line : Int) (s : ScopeState) : s.Leads s.context (bindThis line s).2 := by
  rcases bindThis_cases line s with ⟨_, h⟩ | h
  · rw [h]
    exact ⟨ScopeState.context_record _ _ _ _, by simp⟩
  · exact h.leads

theorem bindSuper_cases (line : Int) (s : ScopeState) :
    (s.classContext = .derived ∧ bindSuper line s =
      (.ofScopes Keyword.superWord.text s.scopes,
        s.record .super ⟨Keyword.superWord.text, line⟩ (.ofScopes Keyword.superWord.text s.scopes))) ∨
    s.Reports s.context (bindSuper line s).2 := by
  have reported : ∀ cause, s.Reports s.context
      ((do reportAtKeyword line .superWord cause
           Resolver.bind .super ⟨Keyword.superWord.text, line⟩ : Resolver Binding) s).2 :=
    fun cause => bind_reports _ _ _ cause s
  unfold bindSuper
  rw [get_bind]
  cases h : s.classContext with
  | outside => exact .inr (reported _)
  | base => exact .inr (reported _)
  | derived => exact .inl ⟨rfl, bind_eq _ _ _⟩

theorem bindSuper_leads (line : Int) (s : ScopeState) : s.Leads s.context (bindSuper line s).2 := by
  rcases bindSuper_cases line s with ⟨_, h⟩ | h
  · rw [h]
    exact ⟨ScopeState.context_record _ _ _ _, by simp⟩
  · exact h.leads

end Resolver

/-! ## Expressions leave the surroundings as they are -/

namespace Expr

open Resolver

mutual

theorem resolve_leads (e : Expr Unit) (s : ScopeState) : s.Leads s.context (e.resolve s).2 :=
  match e with
  | .literal _ => .refl s
  | .grouping e => e.resolve_leads s
  | .unary _ _ e => e.resolve_leads s
  | .binary _ _ a b => (a.resolve_leads s).andThen (b.resolve_leads _)
  | .logical _ _ a b => (a.resolve_leads s).andThen (b.resolve_leads _)
  | .var n _ => bindVariable_leads n s
  | .assign n _ v => (v.resolve_leads s).andThen (bind_leads .assign n _)
  | .call f _ es => (f.resolve_leads s).andThen (resolveAll_leads es _)
  | .get e _ => e.resolve_leads s
  | .set e _ v => (v.resolve_leads s).andThen (e.resolve_leads _)
  | .this l _ => bindThis_leads l s
  | .super l _ _ => bindSuper_leads l s

theorem resolveAll_leads (es : List (Expr Unit)) (s : ScopeState) : s.Leads s.context (resolveAll es s).2 :=
  match es with
  | [] => .refl s
  | e :: es => (e.resolve_leads s).andThen (resolveAll_leads es _)

end

theorem resolve?_leads (e : Option (Expr Unit)) (s : ScopeState) : s.Leads s.context (resolve? e s).2 :=
  match e with
  | none => .refl s
  | some e => e.resolve_leads s

end Expr

/-! ## Statements leave what they declare in the innermost scope -/

namespace Resolver

variable {α : Type}

theorem inScope_leads {scope : Scope} {body : Resolver α} {s : ScopeState} {Γ : Context}
    (h : (s.push scope).Leads Γ (body (s.push scope)).2) (hpop : Γ.pop = s.context) :
    s.Leads s.context (inScope scope body s).2 := by
  rw [inScope_apply]
  refine ⟨?_, h.errors⟩
  rw [ScopeState.context_pop, h.context, hpop]

theorem inFunction_leads {kind : FunctionContext} {body : Resolver α} {s : ScopeState}
    (h : ScopeState.Leads { s with function := kind } (ScopeState.context { s with function := kind })
      (body { s with function := kind }).2) : s.Leads s.context (inFunction kind body s).2 := by
  rw [inFunction_apply]
  refine ⟨?_, h.errors⟩
  have same := h.context
  unfold ScopeState.context at same ⊢
  simp only [Context.mk.injEq] at same ⊢
  exact ⟨same.1, trivial, same.2.2⟩

theorem inClass_leads {kind : ClassContext} {body : Resolver α} {s : ScopeState}
    (h : ScopeState.Leads { s with classContext := kind } (ScopeState.context { s with classContext := kind })
      (body { s with classContext := kind }).2) : s.Leads s.context (inClass kind body s).2 := by
  rw [inClass_apply]
  refine ⟨?_, h.errors⟩
  have same := h.context
  unfold ScopeState.context at same ⊢
  simp only [Context.mk.injEq] at same ⊢
  exact ⟨same.1, same.2.1, trivial⟩

theorem inClassScopes_leads {hasSuperclass : Bool} {body : Resolver α} {s : ScopeState}
    (h : ∀ s : ScopeState, s.Leads s.context (body s).2) :
    s.Leads s.context (inClassScopes hasSuperclass body s).2 := by
  unfold inClassScopes
  cases hasSuperclass with
  | false => exact inScope_leads (h _) rfl
  | true => exact inScope_leads (inScope_leads (h _) rfl) rfl

theorem forM_cons_apply (f : Name → Resolver Unit) (name : Name) (names : List Name) (s : ScopeState) :
    (name :: names).forM f s = names.forM f (f name s).2 := rfl

theorem parameters_leads (names : List Name) (s : ScopeState) :
    s.Leads (s.context.markAll names) (names.forM declareAndDefine s).2 := by
  induction names generalizing s with
  | nil => exact .refl s
  | cons name names ih =>
      have first := declareAndDefine_leads name s
      rw [forM_cons_apply]
      have rest := ih (declareAndDefine name s).2
      rw [first.context] at rest
      exact first.trans rest

theorem bindSuperclass_leads (name : Name) (superclass : Name × Unit) (s : ScopeState) :
    s.Leads s.context (bindSuperclass name superclass s).2 := by
  unfold bindSuperclass
  split
  · exact (reportAt_reports _ _ s).leads
  · exact bindVariable_leads _ s

end Resolver

open Resolver

/-- What is checked of a return statement before its value is looked at. -/
def Resolver.checkReturn (line : Int) (hasValue : Bool) : Resolver Unit := do
  if (← get).function = .outside then
    reportAtKeyword line .returnWord .returnOutsideFunction
  if hasValue && (← get).function = .initializer then
    reportAtKeyword line .returnWord .returnFromInitializer

theorem Resolver.checkReturn_cases (line : Int) (hasValue : Bool) (s : ScopeState) :
    (s.function ≠ .outside ∧ (hasValue → s.function ≠ .initializer) ∧ checkReturn line hasValue s = ((), s)) ∨
    s.Reports s.context (checkReturn line hasValue s).2 := by
  obtain ⟨scopes, kind, classContext, errors, references⟩ := s
  cases kind with
  | outside =>
      refine .inr ?_
      cases hasValue <;> exact reportAt_reports ⟨Keyword.returnWord.text, line⟩ .returnOutsideFunction _
  | function => exact .inl ⟨by simp, by simp, by cases hasValue <;> rfl⟩
  | method => exact .inl ⟨by simp, by simp, by cases hasValue <;> rfl⟩
  | initializer =>
      cases hasValue with
      | false => exact .inl ⟨by simp, by simp, rfl⟩
      | true => exact .inr (reportAt_reports ⟨Keyword.returnWord.text, line⟩ .returnFromInitializer _)

theorem Resolver.checkReturn_leads (line : Int) (hasValue : Bool) (s : ScopeState) :
    s.Leads s.context (checkReturn line hasValue s).2 := by
  rcases checkReturn_cases line hasValue s with ⟨_, _, h⟩ | h
  · rw [h]
    exact .refl s
  · exact h.leads

theorem Stmt.resolve_ret (line : Int) (e : Option (Expr Unit)) (s : ScopeState) :
    (Stmt.ret line e).resolve s = (.ret line (Expr.resolve? e (checkReturn line e.isSome s).2).1,
      (Expr.resolve? e (checkReturn line e.isSome s).2).2) := by
  obtain ⟨scopes, kind, classContext, errors, references⟩ := s
  cases kind <;> cases e <;> rfl

mutual

theorem Stmt.resolve_leads_declares (t : Stmt Unit) (s : ScopeState) :
    s.Leads (s.context.markAll t.declares) (t.resolve s).2 := by
  match t with
  | .expression e => exact e.resolve_leads s
  | .print e => exact e.resolve_leads s
  | .var n e =>
      have declared := declare_leads n s
      have initialized := Expr.resolve?_leads e (declare n s).2
      show s.Leads (s.context.mark n.text true) (define n (Expr.resolve? e (declare n s).2).2).2
      rw [define_apply]
      refine ⟨?_, Nat.le_trans declared.errors initialized.errors⟩
      rw [ScopeState.context_mark, initialized.context, declared.context, Context.mark_mark]
  | .block b => exact inScope_leads (Stmt.resolveAll_leads_declares b (s.push .empty)) (by simp)
  | .function d =>
      have declared := declareAndDefine_leads d.name s
      have resolved := d.resolve_leads .function (declareAndDefine d.name s).2
      rw [declared.context] at resolved
      exact declared.trans resolved
  | .classDecl n c ms =>
      have declared := declareAndDefine_leads n s
      have rest : ∀ (c' : Option (Name × Binding)) (s : ScopeState), s.Leads s.context
          ((do
            let methods ← inClass (.ofDeclaration n c)
              (inClassScopes c.isSome (FunctionDecl.resolveMethods ms))
            return .classDecl n c' methods : Resolver (Stmt Binding)) s).2 :=
        fun _ s => inClass_leads (inClassScopes_leads fun s => FunctionDecl.resolveMethods_leads ms s)
      refine declared.trans ?_
      show (declareAndDefine n s).2.Leads (s.context.mark n.text true) _
      rw [← declared.context]
      cases c with
      | none => exact rest none _
      | some superclass => exact (bindSuperclass_leads n superclass _).andThen (rest _ _)
  | .ite c t none =>
      have condition := c.resolve_leads s
      have taken := t.resolve_leads_declares (c.resolve s).2
      rw [condition.context] at taken
      exact condition.trans taken
  | .ite c t (some e) =>
      have condition := c.resolve_leads s
      have taken := t.resolve_leads_declares (c.resolve s).2
      have other := e.resolve_leads_declares (t.resolve (c.resolve s).2).2
      rw [condition.context] at taken
      rw [taken.context, ← Context.markAll_append] at other
      exact (condition.trans taken).trans other
  | .ret l e =>
      rw [Stmt.resolve_ret]
      exact (checkReturn_leads l e.isSome s).andThen (Expr.resolve?_leads e _)
  | .loop c b =>
      have condition := c.resolve_leads s
      have body := b.resolve_leads_declares (c.resolve s).2
      rw [condition.context] at body
      exact condition.trans body

theorem FunctionDecl.resolve_leads (d : FunctionDecl Unit) (kind : FunctionContext) (s : ScopeState) :
    s.Leads s.context (d.resolve kind s).2 := by
  match d with
  | .mk n ps b =>
      have declared := parameters_leads ps (ScopeState.push { s with function := kind } .empty)
      have body := Stmt.resolveAll_leads_declares b
        (ps.forM declareAndDefine (ScopeState.push { s with function := kind } .empty)).2
      rw [declared.context] at body
      show s.Leads s.context (inFunction kind (inScope .empty do
        ps.forM declareAndDefine
        Stmt.resolveAll b) s).2
      refine inFunction_leads (inScope_leads (declared.trans body) ?_)
      rw [Context.pop_markAll, Context.pop_markAll]
      rfl

theorem Stmt.resolveAll_leads_declares (ts : List (Stmt Unit)) (s : ScopeState) :
    s.Leads (s.context.markAll (ts.flatMap Stmt.declares)) (Stmt.resolveAll ts s).2 := by
  match ts with
  | [] => exact .refl s
  | t :: ts =>
      have first := t.resolve_leads_declares s
      have rest := Stmt.resolveAll_leads_declares ts (t.resolve s).2
      rw [first.context, ← Context.markAll_append] at rest
      exact first.trans rest

theorem FunctionDecl.resolveMethods_leads (ds : List (FunctionDecl Unit)) (s : ScopeState) :
    s.Leads s.context (FunctionDecl.resolveMethods ds s).2 := by
  match ds with
  | [] => exact .refl s
  | d :: ds =>
      have first := d.resolve_leads (.ofMethod d) s
      have rest := FunctionDecl.resolveMethods_leads ds (d.resolve (.ofMethod d) s).2
      exact first.andThen rest

end

/-! ## Statements of a text -/

theorem Stmt.resolve_leads (t : Stmt Unit) (h : t.Proper) (s : ScopeState) :
    s.Leads (s.context.after t) (t.resolve s).2 := by
  rw [s.context.after_eq_markAll h]
  exact t.resolve_leads_declares s

theorem Stmt.resolveAll_leads (ts : List (Stmt Unit)) (h : ∀ t ∈ ts, t.Proper) (s : ScopeState) :
    s.Leads (s.context.afterAll ts) (Stmt.resolveAll ts s).2 := by
  induction ts generalizing s with
  | nil => exact .refl s
  | cons t ts ih =>
      have first := t.resolve_leads (h t List.mem_cons_self) s
      have rest := ih (fun u hu => h u (List.mem_cons_of_mem _ hu)) (t.resolve s).2
      rw [first.context] at rest
      exact first.trans rest

theorem Stmt.resolve?_leads (t : Option (Stmt Unit)) (hd : ∀ u ∈ t, u.declared? = none)
    (h : ∀ u ∈ t, u.Proper) (s : ScopeState) : s.Leads s.context (Stmt.resolve? t s).2 := by
  cases t with
  | none => exact .refl s
  | some t =>
      have led := t.resolve_leads (h t rfl) s
      rw [Context.after_of_declared _ (hd t rfl)] at led
      exact led

end LoxScript
