import LoxScript.Proofs.Scope.Visit

/-!
# Resolution is sound

A piece of a program in which resolution finds no error becomes a well-scoped piece. What is known of the
visits of the resolver is kept as what is asked of every piece of the result.
-/

namespace LoxScript

namespace ScopeState

def inFunction (s : ScopeState) (kind : FunctionContext) : ScopeState :=
  push { s with function := kind } .empty

def inClass (s : ScopeState) (kind : ClassContext) (hasSuperclass : Bool) : ScopeState :=
  let s := { s with classContext := kind }
  (if hasSuperclass then s.push superScope else s).push thisScope

theorem context_inClass (s : ScopeState) (kind : ClassContext) (hasSuperclass : Bool) :
    (s.inClass kind hasSuperclass).context = s.context.inClass kind hasSuperclass := by
  cases hasSuperclass <;> rfl

end ScopeState

namespace Resolver

inductive Task where
  | expr (e : Expr Unit)
  | exprs (es : List (Expr Unit))
  | stmt (t : Stmt Unit)
  | stmts (ts : List (Stmt Unit))
  | function (kind : FunctionContext) (d : FunctionDecl Unit)
  | methods (ds : List (FunctionDecl Unit))

/-- The calls that a call makes when it finds the state `s`, each with the state that it finds. -/
def Task.parts (s : ScopeState) : Task → List (ScopeState × Task)
  | .expr (.literal _) | .expr (.var _ _) | .expr (.this _ _) | .expr (.super _ _ _) => []
  | .expr (.grouping e) | .expr (.unary _ _ e) | .expr (.assign _ _ e) | .expr (.get e _) => [(s, .expr e)]
  | .expr (.binary _ _ a b) | .expr (.logical _ _ a b) => [(s, .expr a), ((a.resolve s).2, .expr b)]
  | .expr (.call f _ es) => [(s, .expr f), ((f.resolve s).2, .exprs es)]
  | .expr (.set e _ v) => [(s, .expr v), ((v.resolve s).2, .expr e)]
  | .exprs [] => []
  | .exprs (e :: es) => [(s, .expr e), ((e.resolve s).2, .exprs es)]
  | .stmt (.expression e) | .stmt (.print e) => [(s, .expr e)]
  | .stmt (.var n e) => e.toList.map fun e => ((declare n s).2, .expr e)
  | .stmt (.block b) => [(s.push .empty, .stmts b)]
  | .stmt (.function d) => [((declareAndDefine d.name s).2, .function .function d)]
  | .stmt (.classDecl n none ms) =>
      [((declareAndDefine n s).2.inClass .base false, .methods ms)]
  | .stmt (.classDecl n (some superclass) ms) =>
      let s := (declareAndDefine n s).2
      (if superclass.1.text = n.text then [] else [(s, .expr (.var superclass.1 ()))]) ++
        [((bindSuperclass n superclass s).2.inClass (.ofDeclaration n (some superclass)) true, .methods ms)]
  | .stmt (.ite c t e) =>
      (s, .expr c) :: ((c.resolve s).2, .stmt t) :: e.toList.map fun e => ((t.resolve (c.resolve s).2).2, .stmt e)
  | .stmt (.ret l e) => e.toList.map fun v => ((checkReturn l e.isSome s).2, .expr v)
  | .stmt (.loop c b) => [(s, .expr c), ((c.resolve s).2, .stmt b)]
  | .stmts [] => []
  | .stmts (t :: ts) => [(s, .stmt t), ((t.resolve s).2, .stmts ts)]
  | .function kind (.mk _ ps b) => [((ps.forM declareAndDefine (s.inFunction kind)).2, .stmts b)]
  | .methods [] => []
  | .methods (d :: ds) => [(s, .function (.ofMethod d) d), ((d.resolve (.ofMethod d) s).2, .methods ds)]

/-- `H` holds of calls together with the calls that they make, and says `P` of what they give. -/
structure Labels (H : ScopeState → Task → Prop) (P : Context → Node Binding → Prop) : Prop where
  parts : ∀ {s t s' t'}, H s t → (s', t') ∈ t.parts s → H s' t'
  expr : ∀ {s e}, H s (.expr e) → P s.context (.expr (e.resolve s).1)
  stmt : ∀ {s t}, H s (.stmt t) → P s.context (.stmt (t.resolve s).1)

end Resolver

open Resolver

variable {H : ScopeState → Task → Prop} {P : Context → Node Binding → Prop}

/-! ## Expressions -/

/-- Wherever the expression is resolved without an error, it becomes well scoped. -/
def Expr.ResolvesScoped (H : ScopeState → Task → Prop) (P : Context → Node Binding → Prop) (e : Expr Unit) : Prop :=
  ∀ s, H s (.expr e) → (e.resolve s).2.errors.size = s.errors.size → (e.resolve s).1.Scoped P s.context

def Expr.ResolveAllScoped (H : ScopeState → Task → Prop) (P : Context → Node Binding → Prop)
    (es : List (Expr Unit)) : Prop :=
  ∀ s, H s (.exprs es) → (Expr.resolveAll es s).2.errors.size = s.errors.size →
    ∀ e ∈ (Expr.resolveAll es s).1, e.Scoped P s.context

namespace Expr

variable {a b e : Expr Unit} {es : List (Expr Unit)} {n : Name}

/-- Of two expressions that are resolved one after the other, both are well scoped where the first one is. -/
theorem ResolvesScoped.both (ha : a.ResolvesScoped H P) (hb : b.ResolvesScoped H P) {s : ScopeState}
    (parts : H s (.expr a) ∧ H (a.resolve s).2 (.expr b))
    (quiet : (b.resolve (a.resolve s).2).2.errors.size = s.errors.size) :
    (a.resolve s).1.Scoped P s.context ∧ (b.resolve (a.resolve s).2).1.Scoped P s.context := by
  have first := a.resolve_leads s
  obtain ⟨qa, qb⟩ := first.quiet (b.resolve_leads _) quiet
  have second := hb _ parts.2 qb
  rw [first.context] at second
  exact ⟨ha s parts.1 qa, second⟩

section Labels

variable (L : Labels H P)

include L

theorem resolvesScoped_binary (ha : a.ResolvesScoped H P) (hb : b.ResolvesScoped H P) (op : BinaryOp) (line : Int) :
    (Expr.binary op line a b).ResolvesScoped H P := by
  intro s h quiet
  have parts := ha.both hb ⟨L.parts h (by simp [Task.parts]), L.parts h (by simp [Task.parts])⟩ quiet
  exact .binary (L.expr h) parts.1 parts.2

theorem resolvesScoped_logical (ha : a.ResolvesScoped H P) (hb : b.ResolvesScoped H P) (op : LogicalOp) (line : Int) :
    (Expr.logical op line a b).ResolvesScoped H P := by
  intro s h quiet
  have parts := ha.both hb ⟨L.parts h (by simp [Task.parts]), L.parts h (by simp [Task.parts])⟩ quiet
  exact .logical (L.expr h) parts.1 parts.2

/-- The value of an assignment to a property is resolved before the object. -/
theorem resolvesScoped_set (he : e.ResolvesScoped H P) (ha : a.ResolvesScoped H P) (n : Name) :
    (Expr.set e n a).ResolvesScoped H P := by
  intro s h quiet
  have parts := ha.both he ⟨L.parts h (by simp [Task.parts]), L.parts h (by simp [Task.parts])⟩ quiet
  exact .set (L.expr h) parts.2 parts.1

theorem resolvesScoped_call (he : e.ResolvesScoped H P) (hes : ResolveAllScoped H P es) (line : Int) :
    (Expr.call e line es).ResolvesScoped H P := by
  intro s h quiet
  have callee := e.resolve_leads s
  obtain ⟨qe, qes⟩ := callee.quiet (resolveAll_leads es _) quiet
  have arguments := hes _ (L.parts h (by simp [Task.parts])) qes
  rw [callee.context] at arguments
  exact .call (L.expr h) (he s (L.parts h (by simp [Task.parts])) qe) arguments

theorem resolvesScoped_var (hn : n.IsIdentifier) (ref : Unit) : (Expr.var n ref).ResolvesScoped H P := by
  intro s h quiet
  have label := L.expr h
  have step : (Expr.var n ref).resolve s = (.var n (bindVariable n s).1, (bindVariable n s).2) := rfl
  rcases bindVariable_cases n s with ⟨reads, bound⟩ | reported
  · rw [step, bound] at label ⊢
    exact .var label hn reads
  · exact (reported.not_quiet quiet).elim

theorem resolvesScoped_assign (hn : n.IsIdentifier) (he : e.ResolvesScoped H P) (ref : Unit) :
    (Expr.assign n ref e).ResolvesScoped H P := by
  intro s h quiet
  have label := L.expr h
  have value := e.resolve_leads s
  obtain ⟨qe, _⟩ := value.quiet (bind_leads .assign n _) quiet
  have scopedValue := he s (L.parts h (by simp [Task.parts])) qe
  have step : (Expr.assign n ref e).resolve s = (.assign n (Resolver.bind .assign n (e.resolve s).2).1 (e.resolve s).1,
      (Resolver.bind .assign n (e.resolve s).2).2) := rfl
  have scopes : (e.resolve s).2.scopes = s.scopes := congrArg Context.scopes value.context
  rw [step, bind_eq, scopes] at label ⊢
  exact .assign label hn rfl scopedValue

theorem resolvesScoped_this (line : Int) (ref : Unit) : (Expr.this line ref).ResolvesScoped H P := by
  intro s h quiet
  have label := L.expr h
  have step : (Expr.this line ref).resolve s = (.this line (bindThis line s).1, (bindThis line s).2) := rfl
  rcases bindThis_cases line s with ⟨inside, bound⟩ | reported
  · rw [step, bound] at label ⊢
    exact .this label inside rfl
  · exact (reported.not_quiet quiet).elim

theorem resolvesScoped_super (line : Int) (method : Name) (ref : Unit) :
    (Expr.super line method ref).ResolvesScoped H P := by
  intro s h quiet
  have label := L.expr h
  have step : (Expr.super line method ref).resolve s =
      (.super line method (bindSuper line s).1, (bindSuper line s).2) := rfl
  rcases bindSuper_cases line s with ⟨inside, bound⟩ | reported
  · rw [step, bound] at label ⊢
    exact .super label inside rfl
  · exact (reported.not_quiet quiet).elim

theorem resolveAllScoped_cons (he : e.ResolvesScoped H P) (hes : ResolveAllScoped H P es) :
    ResolveAllScoped H P (e :: es) := by
  intro s h quiet
  have first := e.resolve_leads s
  obtain ⟨qe, qes⟩ := first.quiet (Expr.resolveAll_leads es _) quiet
  have rest := hes _ (L.parts h (by simp [Task.parts])) qes
  rw [first.context] at rest
  exact List.forall_mem_cons.2 ⟨he s (L.parts h (by simp [Task.parts])) qe, rest⟩

mutual

theorem resolve_scoped (e : Expr Unit) (proper : e.Proper) : e.ResolvesScoped H P :=
  match e, proper with
  | .literal _, _ => fun _ h _ => .literal (L.expr h)
  | .grouping e, .grouping proper => fun s h quiet =>
      .grouping (L.expr h) (resolve_scoped e proper s (L.parts h (by simp [Task.parts])) quiet)
  | .unary _ _ e, .unary proper => fun s h quiet =>
      .unary (L.expr h) (resolve_scoped e proper s (L.parts h (by simp [Task.parts])) quiet)
  | .binary op line a b, .binary pa pb =>
      resolvesScoped_binary L (resolve_scoped a pa) (resolve_scoped b pb) op line
  | .logical op line a b, .logical pa pb =>
      resolvesScoped_logical L (resolve_scoped a pa) (resolve_scoped b pb) op line
  | .var _ ref, .var hn => resolvesScoped_var L hn ref
  | .assign _ ref v, .assign hn proper => resolvesScoped_assign L hn (resolve_scoped v proper) ref
  | .call f line es, .call pf pes =>
      resolvesScoped_call L (resolve_scoped f pf) (resolveAll_scoped es pes) line
  | .get e _, .get proper => fun s h quiet =>
      .get (L.expr h) (resolve_scoped e proper s (L.parts h (by simp [Task.parts])) quiet)
  | .set e n v, .set pe pv => resolvesScoped_set L (resolve_scoped e pe) (resolve_scoped v pv) n
  | .this line ref, _ => resolvesScoped_this L line ref
  | .super line method ref, _ => resolvesScoped_super L line method ref

theorem resolveAll_scoped (es : List (Expr Unit)) (proper : ∀ e ∈ es, e.Proper) : ResolveAllScoped H P es :=
  match es with
  | [] => fun _ _ _ _ => nofun
  | e :: es => resolveAllScoped_cons L (resolve_scoped e (proper e List.mem_cons_self))
      (resolveAll_scoped es fun e he => proper e (List.mem_cons_of_mem _ he))

end

theorem resolve?_scoped (e : Option (Expr Unit)) (proper : ∀ v ∈ e, v.Proper) (s : ScopeState)
    (h : ∀ v ∈ e, H s (.expr v)) (quiet : (Expr.resolve? e s).2.errors.size = s.errors.size) :
    ∀ v ∈ (Expr.resolve? e s).1, v.Scoped P s.context := by
  cases e with
  | none =>
      intro v hv
      cases hv
  | some e =>
      intro v hv
      cases hv
      exact resolve_scoped L e (proper e rfl) s (h e rfl) quiet

end Labels

end Expr

namespace Resolver

theorem declare_mayDeclare {name : Name} {s : ScopeState} (identifier : name.IsIdentifier)
    (quiet : (declare name s).2.errors.size = s.errors.size) : s.context.MayDeclare name := by
  rcases declare_cases name s with ⟨fresh, _⟩ | reported
  · exact ⟨identifier, fresh⟩
  · exact (reported.not_quiet quiet).elim

theorem declareAndDefine_mayDeclare {name : Name} {s : ScopeState} (identifier : name.IsIdentifier)
    (quiet : (declareAndDefine name s).2.errors.size = s.errors.size) : s.context.MayDeclare name := by
  rcases declareAndDefine_cases name s with ⟨fresh, _⟩ | reported
  · exact ⟨identifier, fresh⟩
  · exact (reported.not_quiet quiet).elim

def classBody (kind : ClassContext) (hasSuperclass : Bool) (ms : List (FunctionDecl Unit)) :
    Resolver (List (FunctionDecl Binding)) :=
  inClass kind (inClassScopes hasSuperclass (FunctionDecl.resolveMethods ms))

theorem classBody_leads (kind : ClassContext) (hasSuperclass : Bool) (ms : List (FunctionDecl Unit))
    (s : ScopeState) : s.Leads s.context (classBody kind hasSuperclass ms s).2 :=
  inClass_leads (inClassScopes_leads fun s => FunctionDecl.resolveMethods_leads ms s)

/-- The methods of a class are resolved inside the scopes of its body. -/
theorem classBody_eq (kind : ClassContext) (hasSuperclass : Bool) (ms : List (FunctionDecl Unit))
    (s : ScopeState) :
    (classBody kind hasSuperclass ms s).1 =
        (FunctionDecl.resolveMethods ms (s.inClass kind hasSuperclass)).1 ∧
      ((classBody kind hasSuperclass ms s).2.errors.size = s.errors.size →
        (FunctionDecl.resolveMethods ms (s.inClass kind hasSuperclass)).2.errors.size =
          (s.inClass kind hasSuperclass).errors.size) := by
  cases hasSuperclass <;> exact ⟨rfl, id⟩

theorem parameters_mayDeclare {names : List Name} {s : ScopeState} (identifiers : ∀ n ∈ names, n.IsIdentifier)
    (quiet : (names.forM declareAndDefine s).2.errors.size = s.errors.size) : s.context.MayDeclareAll names := by
  induction names generalizing s with
  | nil => trivial
  | cons name names ih =>
      have first := declareAndDefine_leads name s
      rw [forM_cons_apply] at quiet
      obtain ⟨qn, qns⟩ := first.quiet (parameters_leads names _) quiet
      have rest := ih (fun n hn => identifiers n (List.mem_cons_of_mem _ hn)) qns
      rw [first.context] at rest
      exact ⟨declareAndDefine_mayDeclare (identifiers name List.mem_cons_self) qn, rest⟩

/-- The superclass of a class is another class. -/
theorem bindSuperclass_scoped {name : Name} {superclass : Name × Unit} {s : ScopeState}
    (quiet : (bindSuperclass name superclass s).2.errors.size = s.errors.size) :
    superclass.1.text ≠ name.text ∧ (bindSuperclass name superclass s).1.1 = superclass.1 ∧
      s.context.Reads superclass.1 (bindSuperclass name superclass s).1.2 := by
  by_cases same : superclass.1.text = name.text
  · have step : bindSuperclass name superclass s = (reportAt superclass.1 .inheritsFromItself >>= fun _ =>
        pure (superclass.1, .global)) s := by
      unfold bindSuperclass
      rw [if_pos same]
    rw [step] at quiet
    exact ((reportAt_reports _ _ s).not_quiet quiet).elim
  · have step : bindSuperclass name superclass s =
        ((superclass.1, (bindVariable superclass.1 s).1), (bindVariable superclass.1 s).2) := by
      unfold bindSuperclass
      rw [if_neg same]
      rfl
    rw [step] at quiet ⊢
    rcases bindVariable_cases superclass.1 s with ⟨reads, bound⟩ | reported
    · rw [bound]
      exact ⟨same, rfl, reads⟩
    · exact (reported.not_quiet quiet).elim

end Resolver

/-- Resolution keeps what a statement declares. -/
theorem Stmt.resolve_declared? (t : Stmt Unit) (s : ScopeState) : (t.resolve s).1.declared? = t.declared? := by
  cases t with
  | function d =>
      cases d with
      | mk n ps b => rfl
  | classDecl n c ms => cases c <;> rfl
  | ret l e => rw [Stmt.resolve_ret]; rfl
  | expression _ | print _ | var _ _ | block _ | ite _ _ _ | loop _ _ => rfl

theorem Context.after_resolve (Γ : Context) (t : Stmt Unit) (s : ScopeState) :
    Γ.after (t.resolve s).1 = Γ.after t := by
  unfold Context.after
  rw [Stmt.resolve_declared?]

theorem ClassContext.ofDeclaration_bindSuperclass (n : Name) (superclass : Name × Unit) (s : ScopeState) :
    ClassContext.ofDeclaration n (some (bindSuperclass n superclass s).1) =
      .ofDeclaration n (some superclass) := by
  have kept : (bindSuperclass n superclass s).1.1 = superclass.1 := by
    unfold bindSuperclass
    split <;> rfl
  unfold ofDeclaration
  simp only [kept]

/-! ## Statements and functions -/

def Stmt.ResolvesScoped (H : ScopeState → Task → Prop) (P : Context → Node Binding → Prop) (t : Stmt Unit) : Prop :=
  ∀ s, H s (.stmt t) → (t.resolve s).2.errors.size = s.errors.size → (t.resolve s).1.Scoped P s.context

def Stmt.ResolveAllScoped (H : ScopeState → Task → Prop) (P : Context → Node Binding → Prop)
    (ts : List (Stmt Unit)) : Prop :=
  ∀ s, H s (.stmts ts) → (Stmt.resolveAll ts s).2.errors.size = s.errors.size →
    Stmts.Scoped P s.context (Stmt.resolveAll ts s).1

def FunctionDecl.ResolvesScoped (H : ScopeState → Task → Prop) (P : Context → Node Binding → Prop)
    (d : FunctionDecl Unit) : Prop :=
  ∀ kind s, H s (.function kind d) → (d.resolve kind s).2.errors.size = s.errors.size →
    (d.resolve kind s).1.Scoped P kind s.context

def FunctionDecl.ResolveMethodsScoped (H : ScopeState → Task → Prop) (P : Context → Node Binding → Prop)
    (ds : List (FunctionDecl Unit)) : Prop :=
  ∀ s, H s (.methods ds) → (FunctionDecl.resolveMethods ds s).2.errors.size = s.errors.size →
    ∀ d ∈ (FunctionDecl.resolveMethods ds s).1, d.Scoped P (.ofMethod d) s.context

namespace Stmt

variable {c : Expr Unit} {t b : Stmt Unit} {ts : List (Stmt Unit)} {d : FunctionDecl Unit}
  {ds : List (FunctionDecl Unit)} {n : Name}

theorem resolve?_scoped {o : Option (Stmt Unit)} (ho : ∀ u ∈ o, u.ResolvesScoped H P) (s : ScopeState)
    (h : ∀ u ∈ o, H s (.stmt u)) (quiet : (Stmt.resolve? o s).2.errors.size = s.errors.size) :
    ∀ u ∈ (Stmt.resolve? o s).1, u.Scoped P s.context := by
  cases o with
  | none =>
      intro u hu
      cases hu
  | some t =>
      intro u hu
      cases hu
      exact ho t rfl s (h t rfl) quiet

section Labels

variable (L : Labels H P)

include L

theorem resolvesScoped_var (hn : n.IsIdentifier) {e : Option (Expr Unit)} (proper : ∀ v ∈ e, v.Proper) :
    (Stmt.var n e).ResolvesScoped H P := by
  intro s h quiet
  have declared := declare_leads n s
  have last : ((Stmt.var n e).resolve s).2 = (define n (Expr.resolve? e (declare n s).2).2).2 := rfl
  rw [last, define_apply] at quiet
  obtain ⟨qn, qe⟩ := declared.quiet (Expr.resolve?_leads e _) quiet
  have se := Expr.resolve?_scoped L e proper (declare n s).2
    (fun v hv => L.parts h (by cases hv; simp [Task.parts])) qe
  rw [declared.context] at se
  exact .var (L.stmt h) (declare_mayDeclare hn qn) se

theorem resolvesScoped_function {ps : List Name} {body : List (Stmt Unit)} (hn : n.IsIdentifier)
    (hd : (FunctionDecl.mk n ps body).ResolvesScoped H P) :
    (Stmt.function (.mk n ps body)).ResolvesScoped H P := by
  intro s h quiet
  have declared := declareAndDefine_leads n s
  obtain ⟨qn, qd⟩ := declared.quiet (FunctionDecl.resolve_leads (.mk n ps body) .function _) quiet
  have sd := hd .function (declareAndDefine n s).2 (L.parts h (by simp [Task.parts, FunctionDecl.name])) qd
  rw [declared.context] at sd
  exact .function (L.stmt h) (declareAndDefine_mayDeclare hn qn) sd

/-- A class that inherits from none. -/
theorem resolvesScoped_baseClass (hn : n.IsIdentifier) (hds : FunctionDecl.ResolveMethodsScoped H P ds) :
    (Stmt.classDecl n none ds).ResolvesScoped H P := by
  intro s h quiet
  have label := L.stmt h
  have declared := declareAndDefine_leads n s
  obtain ⟨qn, qds⟩ := declared.quiet (classBody_leads .base false ds _) quiet
  obtain ⟨made, qds'⟩ := classBody_eq .base false ds (declareAndDefine n s).2
  have methods := hds ((declareAndDefine n s).2.inClass .base false) (L.parts h (by simp [Task.parts])) (qds' qds)
  have step : ((Stmt.classDecl n none ds).resolve s).1 = .classDecl n none _ :=
    congrArg (Stmt.classDecl n none) made
  rw [ScopeState.context_inClass, declared.context] at methods
  rw [step] at label ⊢
  exact .classDecl label (declareAndDefine_mayDeclare hn qn) nofun methods

/-- A class that inherits from another: the superclass is resolved where the name of the class is declared. -/
theorem resolvesScoped_derivedClass (hn : n.IsIdentifier) {superclass : Name × Unit}
    (hc : superclass.1.IsIdentifier) (hds : FunctionDecl.ResolveMethodsScoped H P ds) :
    (Stmt.classDecl n (some superclass) ds).ResolvesScoped H P := by
  intro s h quiet
  have label := L.stmt h
  let declaredState := (declareAndDefine n s).2
  let boundState := (bindSuperclass n superclass declaredState).2
  have declared : s.Leads _ declaredState := declareAndDefine_leads n s
  have bound : declaredState.Leads _ boundState := bindSuperclass_leads n superclass declaredState
  obtain ⟨qb, qds⟩ := (declared.trans bound).quiet
    (classBody_leads (.ofDeclaration n (some superclass)) true ds _) quiet
  obtain ⟨qn, qb⟩ := declared.quiet bound qb
  obtain ⟨made, qds'⟩ := classBody_eq (.ofDeclaration n (some superclass)) true ds boundState
  obtain ⟨other, same, reads⟩ := bindSuperclass_scoped qb
  have methods := hds (boundState.inClass (.ofDeclaration n (some superclass)) true)
    (L.parts h (by simp [Task.parts, declaredState, boundState])) (qds' qds)
  have step : ((Stmt.classDecl n (some superclass) ds).resolve s).1 =
      .classDecl n (some (bindSuperclass n superclass declaredState).1) _ := congrArg (Stmt.classDecl n _) made
  rw [ScopeState.context_inClass, bound.context, declared.context] at methods
  rw [declared.context] at reads
  rw [step] at label ⊢
  refine .classDecl label (declareAndDefine_mayDeclare hn qn) (fun p hp => ?superclass) ?methods
  case superclass =>
    cases hp
    rw [same]
    exact ⟨other, hc, reads⟩
  case methods =>
    rw [ClassContext.ofDeclaration_bindSuperclass n superclass declaredState]
    exact methods

theorem resolvesScoped_ite (hc : c.Proper) (dt : t.declared? = none) (pt : t.Proper) (ht : t.ResolvesScoped H P)
    {o : Option (Stmt Unit)} (de : ∀ u ∈ o, u.declared? = none) (pe : ∀ u ∈ o, u.Proper)
    (he : ∀ u ∈ o, u.ResolvesScoped H P) : (Stmt.ite c t o).ResolvesScoped H P := by
  intro s h quiet
  have condition := c.resolve_leads s
  have taken := Stmt.resolve_leads t pt (c.resolve s).2
  have other := Stmt.resolve?_leads o de pe (t.resolve (c.resolve s).2).2
  obtain ⟨qt, qe⟩ := (condition.trans taken).quiet other quiet
  obtain ⟨qc, qt⟩ := condition.quiet taken qt
  have sc := c.resolve_scoped L hc s (L.parts h (by simp [Task.parts])) qc
  have st := ht _ (L.parts h (by simp [Task.parts])) qt
  have se := resolve?_scoped he _ (fun v hv => L.parts h (by cases hv; simp [Task.parts])) qe
  rw [taken.context, Context.after_of_declared _ dt, condition.context] at se
  rw [condition.context] at st
  refine .ite (L.stmt h) sc ((Stmt.resolve_declared? _ _).trans dt) st (fun u hu => ?_) se
  cases o with
  | none => cases hu
  | some e =>
      cases hu
      exact (Stmt.resolve_declared? _ _).trans (de e rfl)

theorem resolvesScoped_ret (line : Int) {e : Option (Expr Unit)} (proper : ∀ v ∈ e, v.Proper) :
    (Stmt.ret line e).ResolvesScoped H P := by
  intro s h quiet
  have label := L.stmt h
  rw [Stmt.resolve_ret] at quiet label ⊢
  obtain ⟨qs, qe⟩ := (checkReturn_leads line e.isSome s).quiet (Expr.resolve?_leads e _) quiet
  rcases checkReturn_cases line e.isSome s with ⟨inside, value, checked⟩ | reported
  · have se := Expr.resolve?_scoped L e proper (checkReturn line e.isSome s).2
      (fun v hv => L.parts h (by cases hv; simp [Task.parts])) qe
    rw [checked] at se label ⊢
    refine .ret label inside (fun hv => value ?_) se
    cases e with
    | none => cases hv
    | some v => rfl
  · exact (reported.not_quiet qs).elim

theorem resolvesScoped_loop (hc : c.Proper) (db : b.declared? = none) (pb : b.Proper) (hb : b.ResolvesScoped H P) :
    (Stmt.loop c b).ResolvesScoped H P := by
  intro s h quiet
  have condition := c.resolve_leads s
  obtain ⟨qc, qb⟩ := condition.quiet (Stmt.resolve_leads b pb _) quiet
  have sc := c.resolve_scoped L hc s (L.parts h (by simp [Task.parts])) qc
  have sb := hb _ (L.parts h (by simp [Task.parts])) qb
  rw [condition.context] at sb
  exact .loop (L.stmt h) sc ((Stmt.resolve_declared? _ _).trans db) sb

theorem resolveAllScoped_cons (pt : t.Proper) (ht : t.ResolvesScoped H P) (pts : ∀ u ∈ ts, u.Proper)
    (hts : ResolveAllScoped H P ts) : ResolveAllScoped H P (t :: ts) := by
  intro s h quiet
  have first := Stmt.resolve_leads t pt s
  obtain ⟨qt, qts⟩ := first.quiet (Stmt.resolveAll_leads ts pts _) quiet
  have st := ht s (L.parts h (by simp [Task.parts])) qt
  have sts := hts _ (L.parts h (by simp [Task.parts])) qts
  rw [first.context, ← Context.after_resolve _ t s] at sts
  exact .cons st sts

end Labels

end Stmt

namespace FunctionDecl

variable {d : FunctionDecl Unit} {ds : List (FunctionDecl Unit)} (L : Labels H P)

include L

theorem resolvesScoped_mk {n : Name} {ps : List Name} {body : List (Stmt Unit)} (hps : ∀ p ∈ ps, p.IsIdentifier)
    (pb : ∀ t ∈ body, t.Proper) (hb : Stmt.ResolveAllScoped H P body) :
    (FunctionDecl.mk n ps body).ResolvesScoped H P := by
  intro kind s h quiet
  have declared := parameters_leads ps (s.inFunction kind)
  obtain ⟨qps, qb⟩ := declared.quiet (Stmt.resolveAll_leads body pb _) quiet
  have sb := hb _ (L.parts h (by simp [Task.parts])) qb
  rw [declared.context] at sb
  exact .mk (parameters_mayDeclare hps qps) sb

theorem resolveMethodsScoped_cons (hd : d.ResolvesScoped H P) (hds : ResolveMethodsScoped H P ds) :
    ResolveMethodsScoped H P (d :: ds) := by
  intro s h quiet
  have first := d.resolve_leads (.ofMethod d) s
  obtain ⟨qd, qds⟩ := first.quiet (FunctionDecl.resolveMethods_leads ds _) quiet
  have sd := hd (.ofMethod d) s (L.parts h (by simp [Task.parts])) qd
  have sds := hds _ (L.parts h (by simp [Task.parts])) qds
  rw [first.context] at sds
  refine List.forall_mem_cons.2 ⟨?_, sds⟩
  cases d with
  | mk n ps body => exact sd

end FunctionDecl

section Assembly

variable (L : Labels H P)

include L

mutual

theorem Stmt.resolve_scoped (t : Stmt Unit) (proper : t.Proper) : t.ResolvesScoped H P :=
  match t, proper with
  | .expression e, .expression proper => fun s h quiet =>
      .expression (L.stmt h) (e.resolve_scoped L proper s (L.parts h (by simp [Task.parts])) quiet)
  | .print e, .print proper => fun s h quiet =>
      .print (L.stmt h) (e.resolve_scoped L proper s (L.parts h (by simp [Task.parts])) quiet)
  | .var _ _, .var hn proper => Stmt.resolvesScoped_var L hn proper
  | .block body, .block proper => fun s h quiet =>
      .block (L.stmt h)
        (Stmt.resolveAll_scoped body proper (s.push .empty) (L.parts h (by simp [Task.parts])) quiet)
  | .function (.mk n ps body), .function proper hn =>
      Stmt.resolvesScoped_function L hn (FunctionDecl.resolve_scoped (.mk n ps body) proper)
  | .classDecl _ none ds, .classDecl hn _ proper =>
      Stmt.resolvesScoped_baseClass L hn (FunctionDecl.resolveMethods_scoped ds proper)
  | .classDecl _ (some superclass) ds, .classDecl hn hc proper =>
      Stmt.resolvesScoped_derivedClass L hn (hc superclass rfl) (FunctionDecl.resolveMethods_scoped ds proper)
  | .ite _ t none, .ite pc dt pt de pe =>
      Stmt.resolvesScoped_ite L pc dt pt (Stmt.resolve_scoped t pt) de pe nofun
  | .ite _ t (some u), .ite pc dt pt de pe =>
      Stmt.resolvesScoped_ite L pc dt pt (Stmt.resolve_scoped t pt) de pe fun _ hu =>
        Option.some.inj hu ▸ Stmt.resolve_scoped u (pe u rfl)
  | .ret line _, .ret proper => Stmt.resolvesScoped_ret L line proper
  | .loop _ b, .loop pc db pb => Stmt.resolvesScoped_loop L pc db pb (Stmt.resolve_scoped b pb)

theorem Stmt.resolveAll_scoped (ts : List (Stmt Unit)) (proper : ∀ t ∈ ts, t.Proper) :
    Stmt.ResolveAllScoped H P ts :=
  match ts with
  | [] => fun _ _ _ => .nil
  | t :: ts =>
      have rest : ∀ u ∈ ts, u.Proper := fun u hu => proper u (List.mem_cons_of_mem _ hu)
      Stmt.resolveAllScoped_cons L (proper t List.mem_cons_self)
        (Stmt.resolve_scoped t (proper t List.mem_cons_self)) rest (Stmt.resolveAll_scoped ts rest)

theorem FunctionDecl.resolve_scoped (d : FunctionDecl Unit) (proper : d.Proper) : d.ResolvesScoped H P :=
  match d, proper with
  | .mk _ _ body, .mk hps proper =>
      FunctionDecl.resolvesScoped_mk L hps proper (Stmt.resolveAll_scoped body proper)

theorem FunctionDecl.resolveMethods_scoped (ds : List (FunctionDecl Unit)) (proper : ∀ d ∈ ds, d.Proper) :
    FunctionDecl.ResolveMethodsScoped H P ds :=
  match ds with
  | [] => fun _ _ _ _ => nofun
  | d :: ds => FunctionDecl.resolveMethodsScoped_cons L
      (FunctionDecl.resolve_scoped d (proper d List.mem_cons_self))
      (FunctionDecl.resolveMethods_scoped ds fun e he => proper e (List.mem_cons_of_mem _ he))

end

end Assembly

/-! ## Whole programs -/

namespace Resolver

/-- The calls that are made when a program is resolved, with the states that they find. -/
inductive Visits (program : List (Stmt Unit)) : ScopeState → Task → Prop where
  | program : Visits program start (.stmts program)
  | part {s t s' t'} : Visits program s t → (s', t') ∈ t.parts s → Visits program s' t'

/-- The resolver visits the piece that becomes `n` in the surroundings `Γ`. -/
inductive VisitsNode (program : List (Stmt Unit)) : Context → Node Binding → Prop where
  | expr {s e} : Visits program s (.expr e) → VisitsNode program s.context (.expr (e.resolve s).1)
  | stmt {s t} : Visits program s (.stmt t) → VisitsNode program s.context (.stmt (t.resolve s).1)

/-- What is visited in one of the programs. -/
theorem labels_of_mem {programs : List (List (Stmt Unit))} {program : List (Stmt Unit)} (h : program ∈ programs) :
    Labels (Visits program) fun Γ n => ∃ p ∈ programs, VisitsNode p Γ n where
  parts := Visits.part
  expr := fun hv => ⟨program, h, .expr hv⟩
  stmt := fun hv => ⟨program, h, .stmt hv⟩

theorem labels_unlabelled (program : List (Stmt Unit)) : Labels (Visits program) Unlabelled where
  parts := Visits.part
  expr := fun _ => trivial
  stmt := fun _ => trivial

end Resolver

theorem Stmt.quiet_of_resolveProgram {program : List (Stmt Unit)}
    (accepted : (Stmt.resolveProgram program).errors = []) :
    (Stmt.resolveAll program Resolver.start).2.errors.size = Resolver.start.errors.size := by
  have none : (Stmt.resolveAll program Resolver.start).2.errors.toList = [] := accepted
  rw [← Array.length_toList, none]
  rfl

/-- A program in which resolution finds no error becomes a well-scoped one. -/
theorem Stmt.resolveProgram_scoped {program : List (Stmt Unit)} (L : Labels (Visits program) P)
    (proper : ∀ s ∈ program, s.Proper) (accepted : (Stmt.resolveProgram program).errors = []) :
    Stmts.Scoped P .top (Stmt.resolveProgram program).value :=
  Stmt.resolveAll_scoped L program proper Resolver.start .program (Stmt.quiet_of_resolveProgram accepted)

/-- The superclass of a class is visited where the name of the class is declared already. -/
theorem Resolver.VisitsNode.superclass {program : List (Stmt Unit)} {Γ : Context} {name sup : Name} {ref : Binding}
    {methods : List (FunctionDecl Binding)} (hne : sup.text ≠ name.text)
    (h : VisitsNode program Γ (.stmt (.classDecl name (some (sup, ref)) methods))) :
    VisitsNode program (Γ.mark name.text true) (.expr (.var sup ref)) := by
  generalize hn : Node.stmt (.classDecl name (some (sup, ref)) methods) = n at h
  cases h with
  | expr _ => cases hn
  | @stmt s t hv =>
      have same := Node.stmt.inj hn
      cases t with
      | ret l e =>
          rw [Stmt.resolve_ret] at same
          cases same
      | function d => cases same
      | expression _ | print _ | var _ _ | block _ | ite _ _ _ | loop _ _ => cases same
      | classDecl n c ms =>
          cases c with
          | none => cases same
          | some p =>
              have step : ((Stmt.classDecl n (some p) ms).resolve s).1 =
                  .classDecl n (some (bindSuperclass n p (declareAndDefine n s).2).1) _ := rfl
              rw [step] at same
              obtain ⟨rfl, bound, _⟩ := Stmt.classDecl.inj same
              have made := Option.some.inj bound
              unfold bindSuperclass at made
              split at made
              · next hsame =>
                  cases made
                  exact absurd hsame hne
              · next hother =>
                  cases made
                  have part : ((declareAndDefine name s).2, Task.expr (.var p.1 ())) ∈
                      Task.parts s (.stmt (.classDecl name (some p) ms)) := by simp [Task.parts, hother]
                  have visited := VisitsNode.expr (hv.part part)
                  rw [(declareAndDefine_leads name s).context] at visited
                  exact visited

end LoxScript
