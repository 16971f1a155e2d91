import LoxScript.Proofs.Scope.Complete

/-!
# What resolution leaves behind

Whatever is resolved and whatever errors are found, the resolver comes back to the surroundings in which it began, but
for the names that the piece declares in the innermost scope. Each reference that is recorded on the way is that of one
node, and leads to one of the scopes that are open when it is recorded.
-/

namespace LoxScript

/-! ## The nodes that refer to variables -/

structure Use (ρ : Type) where
  form : ReferenceForm
  name : Name
  note : ρ

/-- What is recorded of a node: its distance, if it is tied to a scope. -/
def Use.reference? : Use Binding → Option Reference
  | ⟨_, _, .global⟩ => none
  | ⟨form, name, .scoped distance⟩ => some ⟨form, name, distance⟩

namespace Expr

variable {ρ : Type}

mutual

/-- The nodes that refer to variables, each once, in the order in which they are resolved. -/
def uses : Expr ρ → List (Use ρ)
  | .literal _ => []
  | .grouping e | .unary _ _ e | .get e _ => e.uses
  | .binary _ _ a b | .logical _ _ a b => a.uses ++ b.uses
  | .var n ref => [⟨.var, n, ref⟩]
  | .assign n ref v => v.uses ++ [⟨.assign, n, ref⟩]
  | .call f _ es => f.uses ++ usesAll es
  | .set e _ v => v.uses ++ e.uses
  | .this l ref => [⟨.this, ⟨Keyword.thisWord.text, l⟩, ref⟩]
  | .super l _ ref => [⟨.super, ⟨Keyword.superWord.text, l⟩, ref⟩]

def usesAll : List (Expr ρ) → List (Use ρ)
  | [] => []
  | e :: es => e.uses ++ usesAll es

end

def uses? : Option (Expr ρ) → List (Use ρ)
  | none => []
  | some e => e.uses

end Expr

mutual

def Stmt.uses {ρ : Type} : Stmt ρ → List (Use ρ)
  | .expression e | .print e => e.uses
  | .var _ e | .ret _ e => Expr.uses? e
  | .block b => Stmt.usesAll b
  | .function d => d.uses
  | .classDecl _ none ms => FunctionDecl.usesAll ms
  | .classDecl _ (some (n, ref)) ms => ⟨.var, n, ref⟩ :: FunctionDecl.usesAll ms
  | .ite c t e => c.uses ++ (t.uses ++ Stmt.uses? e)
  | .loop c b => c.uses ++ b.uses

def FunctionDecl.uses {ρ : Type} : FunctionDecl ρ → List (Use ρ)
  | .mk _ _ b => Stmt.usesAll b

def Stmt.usesAll {ρ : Type} : List (Stmt ρ) → List (Use ρ)
  | [] => []
  | t :: ts => t.uses ++ Stmt.usesAll ts

def Stmt.uses? {ρ : Type} : Option (Stmt ρ) → List (Use ρ)
  | none => []
  | some t => t.uses

def FunctionDecl.usesAll {ρ : Type} : List (FunctionDecl ρ) → List (Use ρ)
  | [] => []
  | d :: ds => d.uses ++ FunctionDecl.usesAll ds

end

/-! ## The moments at which references are recorded -/

/-- A reference that is recorded, with the state in which the resolver records it. -/
structure Recording where
  state : ScopeState
  reference : Reference

namespace Resolver

/-- The recording that is made where a name is tied, if a scope declares it. -/
def tie (form : ReferenceForm) (name : Name) (s : ScopeState) : List Recording :=
  ((Use.mk form name (Binding.ofScopes name.text s.scopes)).reference?.map (Recording.mk s)).toList

/-- The state in which a variable is tied: a use in its own initializer is reported first. -/
def beforeVariable (name : Name) (s : ScopeState) : ScopeState :=
  if (s.scopes.head?.bind fun scope => scope.find? name.text) = some false then
    (reportAt name .ownInitializer s).2
  else s

def tieVariable (name : Name) (s : ScopeState) : List Recording :=
  tie .var name (beforeVariable name s)

def tieThis (line : Int) (s : ScopeState) : List Recording :=
  match s.classContext with
  | .outside => []
  | .base | .derived => tie .this ⟨Keyword.thisWord.text, line⟩ s

/-- The state in which `super` is tied: a use without a superclass is reported first. -/
def beforeSuper (line : Int) (s : ScopeState) : ScopeState :=
  match s.classContext with
  | .outside => (reportAtKeyword line .superWord .superOutsideClass s).2
  | .base => (reportAtKeyword line .superWord .superWithoutSuperclass s).2
  | .derived => s

def tieSuper (line : Int) (s : ScopeState) : List Recording :=
  tie .super ⟨Keyword.superWord.text, line⟩ (beforeSuper line s)

def tieSuperclass (name : Name) (superclass : Name × Unit) (s : ScopeState) : List Recording :=
  if superclass.1.text = name.text then [] else tieVariable superclass.1 s

end Resolver

open Resolver

namespace Expr

mutual

/-- The recordings that are made while an expression is resolved, when the resolver begins in the state `s`. -/
def recordings : Expr Unit → ScopeState → List Recording
  | .literal _, _ => []
  | .grouping e, s | .unary _ _ e, s | .get e _, s => e.recordings s
  | .binary _ _ a b, s | .logical _ _ a b, s => a.recordings s ++ b.recordings (a.resolve s).2
  | .var n _, s => tieVariable n s
  | .assign n _ v, s => v.recordings s ++ tie .assign n (v.resolve s).2
  | .call f _ es, s => f.recordings s ++ recordingsAll es (f.resolve s).2
  | .set e _ v, s => v.recordings s ++ e.recordings (v.resolve s).2
  | .this l _, s => tieThis l s
  | .super l _ _, s => tieSuper l s

def recordingsAll : List (Expr Unit) → ScopeState → List Recording
  | [], _ => []
  | e :: es, s => e.recordings s ++ recordingsAll es (e.resolve s).2

end

def recordings? : Option (Expr Unit) → ScopeState → List Recording
  | none, _ => []
  | some e, s => e.recordings s

end Expr

mutual

def Stmt.recordings : Stmt Unit → ScopeState → List Recording
  | .expression e, s | .print e, s => e.recordings s
  | .var n e, s => Expr.recordings? e (declare n s).2
  | .block b, s => Stmt.recordingsAll b (s.push .empty)
  | .function d, s => d.recordings .function (declareAndDefine d.name s).2
  | .classDecl n none ms, s => FunctionDecl.recordingsAll ms ((declareAndDefine n s).2.inClass .base false)
  | .classDecl n (some superclass) ms, s =>
      tieSuperclass n superclass (declareAndDefine n s).2 ++
        FunctionDecl.recordingsAll ms ((bindSuperclass n superclass (declareAndDefine n s).2).2.inClass
          (.ofDeclaration n (some superclass)) true)
  | .ite c t e, s => c.recordings s ++ (t.recordings (c.resolve s).2 ++ Stmt.recordings? e (t.resolve (c.resolve s).2).2)
  | .ret l e, s => Expr.recordings? e (checkReturn l e.isSome s).2
  | .loop c b, s => c.recordings s ++ b.recordings (c.resolve s).2

def FunctionDecl.recordings (kind : FunctionContext) : FunctionDecl Unit → ScopeState → List Recording
  | .mk _ ps b, s => Stmt.recordingsAll b (ps.forM declareAndDefine (s.inFunction kind)).2

def Stmt.recordingsAll : List (Stmt Unit) → ScopeState → List Recording
  | [], _ => []
  | t :: ts, s => t.recordings s ++ Stmt.recordingsAll ts (t.resolve s).2

def Stmt.recordings? : Option (Stmt Unit) → ScopeState → List Recording
  | none, _ => []
  | some t, s => t.recordings s

def FunctionDecl.recordingsAll : List (FunctionDecl Unit) → ScopeState → List Recording
  | [], _ => []
  | d :: ds, s => d.recordings (.ofMethod d) s ++ FunctionDecl.recordingsAll ds (d.resolve (.ofMethod d) s).2

end

/-- The recordings `rs` lead from the references `old` to `new`, and are those of the nodes `us`. -/
structure Recorded (old : Array Reference) (rs : List Recording) (us : List (Use Binding)) (new : Array Reference) :
    Prop where
  added : new.toList = old.toList ++ rs.map Recording.reference
  /-- Nothing is recorded between one recording and the next. -/
  moment : ∀ i r, rs[i]? = some r → r.state.references.toList = old.toList ++ (rs.take i).map Recording.reference
  made : ∀ r ∈ rs, (Resolver.bind r.reference.form r.reference.name r.state).1 = .scoped r.reference.distance
  within : ∀ r ∈ rs, r.reference.distance < r.state.scopes.length
  /-- Each node has one recording or none. -/
  nodes : rs.map Recording.reference = us.filterMap Use.reference?

theorem Binding.ofScopes_lt {name : String} {scopes : List Scope} {d : Nat}
    (h : Binding.ofScopes name scopes = .scoped d) : d < scopes.length := by
  unfold Binding.ofScopes at h
  cases hd : distance? name scopes with
  | none =>
      rw [hd] at h
      cases h
  | some d' =>
      rw [hd] at h
      cases h
      exact distance?_lt hd

namespace Recorded

variable {old mid new : Array Reference} {rs rs' : List Recording} {us us' : List (Use Binding)}

theorem nothing (old : Array Reference) : Recorded old [] [] old :=
  ⟨by simp, by simp, by simp, by simp, rfl⟩

theorem append (h : Recorded old rs us mid) (h' : Recorded mid rs' us' new) :
    Recorded old (rs ++ rs') (us ++ us') new where
  added := by rw [h'.added, h.added, List.map_append, List.append_assoc]
  moment i r hr := by
    rcases Nat.lt_or_ge i rs.length with early | late
    · rw [List.getElem?_append_left early] at hr
      rw [h.moment i r hr, List.take_append_of_le_length (Nat.le_of_lt early)]
    · rw [List.getElem?_append_right late] at hr
      rw [h'.moment _ r hr, h.added, List.take_append, List.take_of_length_le late, List.map_append, List.append_assoc]
  made r hr := by
    rcases List.mem_append.1 hr with hr | hr
    · exact h.made r hr
    · exact h'.made r hr
  within r hr := by
    rcases List.mem_append.1 hr with hr | hr
    · exact h.within r hr
    · exact h'.within r hr
  nodes := by rw [List.map_append, List.filterMap_append, h.nodes, h'.nodes]

/-- A node of which nothing is recorded. -/
theorem unrecorded (h : Recorded old [] [] new) {u : Use Binding} (hu : u.reference? = none) :
    Recorded old [] [u] new :=
  ⟨h.added, h.moment, h.made, h.within, by simp [hu]⟩

/-- A name is tied to one of the scopes that are open. -/
theorem tie (form : ReferenceForm) (name : Name) (s : ScopeState) :
    Recorded s.references (Resolver.tie form name s) [⟨form, name, (Resolver.bind form name s).1⟩]
      (Resolver.bind form name s).2.references := by
  rw [bind_eq]
  unfold Resolver.tie
  cases hd : Binding.ofScopes name.text s.scopes with
  | global => exact (nothing s.references).unrecorded rfl
  | «scoped» d =>
      refine ⟨by simp [Use.reference?, ScopeState.record], fun i r hr => ?_, fun r hr => ?_, fun r hr => ?_, rfl⟩
      · obtain ⟨first, rfl⟩ : i = 0 ∧ Recording.mk s ⟨form, name, d⟩ = r := by
          cases i with
          | zero => exact ⟨rfl, by simpa [Use.reference?] using hr⟩
          | succ i => simp [Use.reference?] at hr
        simp [first]
      · obtain rfl : r = ⟨s, ⟨form, name, d⟩⟩ := by simpa [Use.reference?] using hr
        rw [bind_eq]
        exact hd
      · obtain rfl : r = ⟨s, ⟨form, name, d⟩⟩ := by simpa [Use.reference?] using hr
        exact Binding.ofScopes_lt hd

theorem tieVariable (name : Name) (s : ScopeState) :
    Recorded s.references (Resolver.tieVariable name s) [⟨.var, name, (bindVariable name s).1⟩]
      (bindVariable name s).2.references := by
  rw [bindVariable_eq]
  unfold Resolver.tieVariable beforeVariable
  split
  · exact tie .var name (reportAt name .ownInitializer s).2
  · exact tie .var name s

theorem tieThis (line : Int) (s : ScopeState) :
    Recorded s.references (Resolver.tieThis line s) [⟨.this, ⟨Keyword.thisWord.text, line⟩, (bindThis line s).1⟩]
      (bindThis line s).2.references := by
  unfold bindThis Resolver.tieThis
  rw [get_bind]
  cases s.classContext with
  | outside => exact (nothing s.references).unrecorded rfl
  | base | derived => exact tie .this ⟨Keyword.thisWord.text, line⟩ s

theorem tieSuper (line : Int) (s : ScopeState) :
    Recorded s.references (Resolver.tieSuper line s) [⟨.super, ⟨Keyword.superWord.text, line⟩, (bindSuper line s).1⟩]
      (bindSuper line s).2.references := by
  unfold bindSuper Resolver.tieSuper beforeSuper
  rw [get_bind]
  cases s.classContext with
  | outside => exact tie _ _ (reportAtKeyword line .superWord .superOutsideClass s).2
  | base => exact tie _ _ (reportAtKeyword line .superWord .superWithoutSuperclass s).2
  | derived => exact tie _ _ s

theorem tieSuperclass (name : Name) (superclass : Name × Unit) (s : ScopeState) :
    Recorded s.references (Resolver.tieSuperclass name superclass s)
      [⟨.var, (bindSuperclass name superclass s).1.1, (bindSuperclass name superclass s).1.2⟩]
      (bindSuperclass name superclass s).2.references := by
  unfold bindSuperclass Resolver.tieSuperclass
  split
  · exact (nothing s.references).unrecorded rfl
  · exact tieVariable superclass.1 s

end Recorded

/-! ## Declarations and checks record nothing -/

namespace Resolver

theorem references_declare (name : Name) (s : ScopeState) : (declare name s).2.references = s.references := by
  rw [declare_eq]
  cases s.scopes with
  | nil => rfl
  | cons scope outer =>
      dsimp only
      split
      · show (setInnermost name.text false (reportAt name .alreadyDeclared s).2).2.references = _
        rw [setInnermost_apply]
        rfl
      · show (setInnermost name.text false s).2.references = _
        rw [setInnermost_apply]
        rfl

theorem references_declareAndDefine (name : Name) (s : ScopeState) :
    (declareAndDefine name s).2.references = s.references := by
  rw [declareAndDefine_apply]
  exact references_declare name s

theorem references_parameters (names : List Name) (s : ScopeState) :
    (names.forM declareAndDefine s).2.references = s.references := by
  induction names generalizing s with
  | nil => rfl
  | cons name names ih => rw [forM_cons_apply, ih, references_declareAndDefine]

theorem references_checkReturn (line : Int) (hasValue : Bool) (s : ScopeState) :
    (checkReturn line hasValue s).2.references = s.references := by
  obtain ⟨scopes, kind, classContext, errors, references⟩ := s
  cases kind <;> cases hasValue <;> rfl

end Resolver

/-! ## What resolution records -/

namespace Expr

mutual

theorem resolve_recorded (e : Expr Unit) (s : ScopeState) :
    Recorded s.references (e.recordings s) (e.resolve s).1.uses (e.resolve s).2.references :=
  match e with
  | .literal _ => .nothing s.references
  | .grouping e => e.resolve_recorded s
  | .unary _ _ e => e.resolve_recorded s
  | .binary _ _ a b => (a.resolve_recorded s).append (b.resolve_recorded _)
  | .logical _ _ a b => (a.resolve_recorded s).append (b.resolve_recorded _)
  | .var n _ => .tieVariable n s
  | .assign n _ v => (v.resolve_recorded s).append (.tie .assign n _)
  | .call f _ es => (f.resolve_recorded s).append (resolveAll_recorded es _)
  | .get e _ => e.resolve_recorded s
  | .set e _ v => (v.resolve_recorded s).append (e.resolve_recorded _)
  | .this l _ => .tieThis l s
  | .super l _ _ => .tieSuper l s

theorem resolveAll_recorded (es : List (Expr Unit)) (s : ScopeState) :
    Recorded s.references (recordingsAll es s) (usesAll (resolveAll es s).1) (resolveAll es s).2.references :=
  match es with
  | [] => .nothing s.references
  | e :: es => (e.resolve_recorded s).append (resolveAll_recorded es _)

end

theorem resolve?_recorded (e : Option (Expr Unit)) (s : ScopeState) :
    Recorded s.references (recordings? e s) (uses? (resolve? e s).1) (resolve? e s).2.references :=
  match e with
  | none => .nothing s.references
  | some e => e.resolve_recorded s

end Expr

mutual

theorem Stmt.resolve_recorded (t : Stmt Unit) (s : ScopeState) :
    Recorded s.references (t.recordings s) (t.resolve s).1.uses (t.resolve s).2.references := by
  match t with
  | .expression e => exact e.resolve_recorded s
  | .print e => exact e.resolve_recorded s
  | .var n e =>
      have initialized := Expr.resolve?_recorded e (declare n s).2
      rw [references_declare] at initialized
      show Recorded _ _ _ (define n (Expr.resolve? e (declare n s).2).2).2.references
      rw [define_apply]
      exact initialized
  | .block b => exact Stmt.resolveAll_recorded b (s.push .empty)
  | .function d =>
      have resolved := d.resolve_recorded .function (declareAndDefine d.name s).2
      rw [references_declareAndDefine] at resolved
      exact resolved
  | .classDecl n none ms =>
      have methods := FunctionDecl.resolveMethods_recorded ms ((declareAndDefine n s).2.inClass .base false)
      have same : ((declareAndDefine n s).2.inClass .base false).references = s.references :=
        references_declareAndDefine n s
      rw [same] at methods
      exact methods
  | .classDecl n (some superclass) ms =>
      have tied := Recorded.tieSuperclass n superclass (declareAndDefine n s).2
      rw [references_declareAndDefine] at tied
      exact tied.append (FunctionDecl.resolveMethods_recorded ms
        ((bindSuperclass n superclass (declareAndDefine n s).2).2.inClass (.ofDeclaration n (some superclass)) true))
  | .ite c t e =>
      exact (c.resolve_recorded s).append ((Stmt.resolve_recorded t _).append (Stmt.resolve?_recorded e _))
  | .ret l e =>
      have value := Expr.resolve?_recorded e (checkReturn l e.isSome s).2
      rw [references_checkReturn] at value
      rw [Stmt.resolve_ret]
      exact value
  | .loop c b => exact (c.resolve_recorded s).append (Stmt.resolve_recorded b _)

theorem FunctionDecl.resolve_recorded (d : FunctionDecl Unit) (kind : FunctionContext) (s : ScopeState) :
    Recorded s.references (d.recordings kind s) (d.resolve kind s).1.uses (d.resolve kind s).2.references := by
  match d with
  | .mk n ps b =>
      have body := Stmt.resolveAll_recorded b (ps.forM declareAndDefine (s.inFunction kind)).2
      rw [references_parameters] at body
      exact body

theorem Stmt.resolveAll_recorded (ts : List (Stmt Unit)) (s : ScopeState) :
    Recorded s.references (Stmt.recordingsAll ts s) (Stmt.usesAll (Stmt.resolveAll ts s).1)
      (Stmt.resolveAll ts s).2.references := by
  match ts with
  | [] => exact .nothing s.references
  | t :: ts => exact (Stmt.resolve_recorded t s).append (Stmt.resolveAll_recorded ts _)

theorem Stmt.resolve?_recorded (t : Option (Stmt Unit)) (s : ScopeState) :
    Recorded s.references (Stmt.recordings? t s) (Stmt.uses? (Stmt.resolve? t s).1)
      (Stmt.resolve? t s).2.references := by
  match t with
  | none => exact .nothing s.references
  | some t => exact Stmt.resolve_recorded t s

theorem FunctionDecl.resolveMethods_recorded (ds : List (FunctionDecl Unit)) (s : ScopeState) :
    Recorded s.references (FunctionDecl.recordingsAll ds s) (FunctionDecl.usesAll (FunctionDecl.resolveMethods ds s).1)
      (FunctionDecl.resolveMethods ds s).2.references := by
  match ds with
  | [] => exact .nothing s.references
  | d :: ds =>
      exact (FunctionDecl.resolve_recorded d (.ofMethod d) s).append (FunctionDecl.resolveMethods_recorded ds _)

end

/-! ## The surroundings are restored -/

namespace Context

theorem markAll_cons (Γ : Context) (name : Name) (names : List Name) :
    Γ.markAll (name :: names) = (Γ.mark name.text true).markAll names := rfl

theorem function_markAll (Γ : Context) (names : List Name) : (Γ.markAll names).function = Γ.function := by
  induction names generalizing Γ with
  | nil => rfl
  | cons name names ih =>
      rw [markAll_cons, ih]
      obtain ⟨scopes, _, _⟩ := Γ
      cases scopes <;> rfl

theorem classContext_markAll (Γ : Context) (names : List Name) : (Γ.markAll names).classContext = Γ.classContext := by
  induction names generalizing Γ with
  | nil => rfl
  | cons name names ih =>
      rw [markAll_cons, ih]
      obtain ⟨scopes, _, _⟩ := Γ
      cases scopes <;> rfl

/-- The innermost scope has the marked names, and no other names are touched in it. -/
theorem innermost_markAll (Γ : Context) (names : List Name) {scope : Scope} (h : Γ.scopes.head? = some scope) :
    ∃ scope', (Γ.markAll names).scopes.head? = some scope' ∧
      ∀ name, scope'.find? name = if name ∈ names.map Name.text then some true else scope.find? name := by
  induction names generalizing Γ scope with
  | nil => exact ⟨scope, h, by simp⟩
  | cons first names ih =>
      obtain ⟨scopes, kind, classContext⟩ := Γ
      cases scopes with
      | nil => cases h
      | cons innermost outer =>
          cases h
          obtain ⟨scope', found, entries⟩ :=
            ih ((Context.mk (scope :: outer) kind classContext).mark first.text true) rfl
          refine ⟨scope', found, fun name => ?_⟩
          rw [entries, Table.find?_insert, List.map_cons]
          by_cases later : name ∈ names.map Name.text
          · simp [later]
          · simp [later]

end Context

/-- The resolver is back in the surroundings of `s`, with the names `declared` added to the innermost scope. -/
structure ScopeState.Restored (s : ScopeState) (declared : List Name) (s' : ScopeState) : Prop where
  height : s'.scopes.length = s.scopes.length
  outer : s'.scopes.tail = s.scopes.tail
  innermost : ∀ scope ∈ s.scopes.head?, ∃ scope' ∈ s'.scopes.head?, ∀ name,
    scope'.find? name = if name ∈ declared.map Name.text then some true else scope.find? name
  function : s'.function = s.function
  classContext : s'.classContext = s.classContext

theorem ScopeState.Leads.restored {s s' : ScopeState} {declared : List Name}
    (h : s.Leads (s.context.markAll declared) s') : s.Restored declared s' where
  height := (congrArg (·.scopes.length) h.context).trans (s.context.length_markAll declared)
  outer := (congrArg (·.pop.scopes) h.context).trans (congrArg Context.scopes (s.context.pop_markAll declared))
  innermost scope hs := by
    obtain ⟨scope', found, entries⟩ := s.context.innermost_markAll declared hs
    exact ⟨scope', (congrArg (·.scopes.head?) h.context).trans found, entries⟩
  function := (congrArg Context.function h.context).trans (s.context.function_markAll declared)
  classContext := (congrArg Context.classContext h.context).trans (s.context.classContext_markAll declared)

/-- Whatever state the resolver is in, it comes back to its surroundings from every expression and from every
statement, with errors or without, and every reference that it records on the way leads to a scope that is open. Only a
declaration leaves an entry; a statement that is a branch or the body of a loop counts as its parts do. -/
theorem Resolver.resolve_restores (s : ScopeState) :
    (∀ e : Expr Unit, s.Restored [] (e.resolve s).2 ∧ (e.resolve s).1.forget = e ∧
      Recorded s.references (e.recordings s) (e.resolve s).1.uses (e.resolve s).2.references) ∧
    ∀ t : Stmt Unit, s.Restored t.declares (t.resolve s).2 ∧
      (t.Proper → s.Restored t.declared?.toList (t.resolve s).2) ∧ (t.resolve s).1.forget = t ∧
      Recorded s.references (t.recordings s) (t.resolve s).1.uses (t.resolve s).2.references := by
  refine ⟨fun e => ⟨?_, e.forget_resolve s, e.resolve_recorded s⟩,
    fun t => ⟨?_, fun proper => ?_, t.forget_resolve s, t.resolve_recorded s⟩⟩
  · exact ScopeState.Leads.restored (e.resolve_leads s)
  · exact (t.resolve_leads_declares s).restored
  · exact proper.declares_eq ▸ (t.resolve_leads_declares s).restored

/-- A class that inherits from itself opens both scopes of a class body all the same. Both are closed behind the errors
of its head and of its method, and the `super` there leads past the parameters and `this`. -/
theorem Resolver.resolve_restores_itself :
    ∃ (t : Stmt Unit) (s : ScopeState),
      t = .classDecl ⟨"A", 1⟩ (some (⟨"A", 1⟩, ())) [.mk ⟨"m", 2⟩ [] [.expression (.super 2 ⟨"m", 2⟩ ())]] ∧
      s.scopes.length = 1 ∧ t.Proper ∧ s.Restored [⟨"A", 1⟩] (t.resolve s).2 ∧
      (t.resolve s).2.errors.toList.map Located.cause = [.inheritsFromItself, .superWithoutSuperclass] ∧
      (t.resolve s).2.references.toList = [⟨.super, ⟨"super", 2⟩, 2⟩] := by
  have proper : Stmt.Proper (.classDecl ⟨"A", 1⟩ (some (⟨"A", 1⟩, ()))
      [.mk ⟨"m", 2⟩ [] [.expression (.super 2 ⟨"m", 2⟩ ())]]) := by
    refine .classDecl rfl (by rintro p ⟨⟩; rfl) fun d hd => ?_
    obtain rfl := List.mem_singleton.1 hd
    refine .mk (by simp) fun t ht => ?_
    obtain rfl := List.mem_singleton.1 ht
    exact .expression .super
  exact ⟨_, { Resolver.start with scopes := [.empty] }, rfl, rfl, proper,
    ((Resolver.resolve_restores _).2 _).2.1 proper, by decide +kernel, by decide +kernel⟩

end LoxScript
