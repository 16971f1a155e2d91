import Mathlib
import LoxScript.Proofs.Scope.Rule
import LoxScript.Proofs.Scope.Visit
import LoxScript.Proofs.Tree.Parse

/-!
# Resolution reports the violations of the lexical rules

The state that resolution carries along agrees with the surroundings of the place that it visits. So it reports what the
rules forbid there, and nothing else.
-/

namespace LoxScript

/-! ## What is known at a place -/

/-- The names in a list that are the same as one of `before` or as an earlier one. -/
def Name.repeatedAfter (before : List Name) : List Name → List Name
  | [] => []
  | name :: names =>
      if name.text ∈ before.map Name.text then name :: repeatedAfter (before ++ [name]) names
      else repeatedAfter (before ++ [name]) names

theorem Name.repeatedAfter_eq (before names : List Name) :
    repeatedAfter before names =
      ((names.zipIdx before.length).filter fun (name, i) =>
        ((before ++ names).take i).any (·.text == name.text)).map Prod.fst := by
  induction names generalizing before with
  | nil => rfl
  | cons name names ih =>
      have rest := ih (before ++ [name])
      rw [List.length_append, List.append_assoc] at rest
      have known : (before.any fun earlier => earlier.text == name.text) =
          decide (name.text ∈ before.map Name.text) := by
        rw [Bool.eq_iff_iff]
        simp
      rw [repeatedAfter, rest, List.zipIdx_cons]
      by_cases h : name.text ∈ before.map Name.text <;> simp [h, known]

theorem Name.repeated_eq (names : List Name) : repeated names = repeatedAfter [] names :=
  (repeatedAfter_eq [] names).symm

theorem Name.repeatedAfter_append (before names more : List Name) :
    repeatedAfter before (names ++ more) = repeatedAfter before names ++ repeatedAfter (before ++ names) more := by
  induction names generalizing before with
  | nil => simp [repeatedAfter]
  | cons name names ih =>
      rw [List.cons_append, repeatedAfter, repeatedAfter, ih]
      split <;> simp

def FunctionContext.ofAround (around : List Surrounding) : FunctionContext :=
  match around.find? Surrounding.isCallable with
  | none => .outside
  | some (.method name) => if name.text == FunctionDecl.initializerName then .initializer else .method
  | some _ => .function

theorem FunctionContext.ofAround_eq_outside {around : List Surrounding} :
    ofAround around = .outside ↔ around.any Surrounding.isCallable = false := by
  have some : around.any Surrounding.isCallable = (around.find? Surrounding.isCallable).isSome := by
    rw [Bool.eq_iff_iff, List.find?_isSome, List.any_eq_true]
  rw [some, ofAround]
  split
  · next none => simp [none]
  · next found => split <;> simp [found]
  · next found => simp [found]

theorem FunctionContext.ofAround_eq_initializer {around : List Surrounding} :
    ofAround around = .initializer ↔ (around.find? Surrounding.isCallable).any Surrounding.initializes = true := by
  unfold ofAround
  rcases around.find? Surrounding.isCallable with _ | _ | _ | name | _ | _ <;> simp [Surrounding.initializes]

def ClassContext.ofAround (around : List Surrounding) : ClassContext :=
  match around.findSome? Surrounding.class? with
  | none => .outside
  | some (name, superclass) => .ofDeclaration name (superclass.map fun superclass => (superclass, ()))

namespace Context

/-- Of an expression, its surroundings tell whether it may read a variable and whether it is in a class. -/
structure Evaluates (Γ : Context) (around : List Surrounding) : Prop where
  classContext : Γ.classContext = .ofAround around
  initializer : ∀ name : String, (Γ.scopes.head?.bind fun scope => scope.find? name) = some false ↔
    ∃ own ∈ Surrounding.initialized? around, own.text = name

/-- Of a statement, its surroundings and the names declared before it in its scope tell all that resolution keeps. -/
structure Executes (Γ : Context) (around : List Surrounding) (names : List Name) : Prop where
  function : Γ.function = .ofAround around
  classContext : Γ.classContext = .ofAround around
  isGlobal : Γ.scopes = [] ↔ around.any Surrounding.isScope = false
  declared : ∀ scope ∈ Γ.scopes.head?, ∀ name : String,
    scope.find? name = if name ∈ names.map Name.text then some true else none
  initialized : Surrounding.initialized? around = none

variable {Γ : Context} {around : List Surrounding} {names : List Name}

namespace Executes

theorem evaluates (h : Γ.Executes around names) : Γ.Evaluates around where
  classContext := h.classContext
  initializer name := by
    refine ⟨fun unpassed => ?_, fun ⟨_, own, _⟩ => by rw [h.initialized] at own; cases own⟩
    obtain ⟨scope, innermost, found⟩ := Option.bind_eq_some_iff.1 unpassed
    rw [h.declared scope innermost] at found
    split at found <;> cases found

theorem mark (h : Γ.Executes around names) (name : Name) :
    (Γ.mark name.text true).Executes around (names ++ [name]) := by
  obtain ⟨scopes, _, _⟩ := Γ
  cases scopes with
  | nil => exact ⟨h.function, h.classContext, h.isGlobal, nofun, h.initialized⟩
  | cons scope outer =>
      refine ⟨h.function, h.classContext, by simpa [Context.mark] using h.isGlobal, ?_, h.initialized⟩
      rintro _ ⟨⟩ other
      have known := h.declared scope rfl other
      rw [Table.find?_insert, known]
      by_cases same : other = name.text <;> simp [same]

theorem initializer (h : Γ.Executes around names) (name : Name) :
    (Γ.mark name.text false).Evaluates (.initializer name :: around) := by
  have isGlobal := h.isGlobal
  obtain ⟨scopes, _, classContext⟩ := Γ
  cases scopes with
  | nil =>
      refine ⟨h.classContext, fun other => ?_⟩
      rw [Surrounding.initialized?, isGlobal.1 rfl]
      simp [Context.mark]
  | cons scope outer =>
      refine ⟨h.classContext, fun other => ?_⟩
      have isLocal : around.any Surrounding.isScope = true := by
        rw [← Bool.not_eq_false, ← isGlobal]
        exact List.cons_ne_nil _ _
      have known := h.declared scope rfl other
      rw [Surrounding.initialized?, isLocal]
      simp only [Context.mark, List.head?_cons, Option.bind_some, Table.find?_insert, known]
      by_cases same : other = name.text
      · simp [same]
      · simp only [same, if_false]
        split <;> simp [Ne.symm same]

theorem after (h : Γ.Executes around names) (t : Stmt Unit) :
    (Γ.after t).Executes around (names ++ t.declared?.toList) := by
  unfold Context.after
  cases t.declared? with
  | none => simpa using h
  | some name => exact h.mark name

theorem markAll (h : Γ.Executes around names) (more : List Name) :
    (Γ.markAll more).Executes around (names ++ more) := by
  induction more generalizing Γ names with
  | nil => rwa [List.append_nil]
  | cons name more ih =>
      have rest := ih (h.mark name)
      rwa [List.append_assoc] at rest

theorem block (h : Γ.Executes around names) : (Γ.push .empty).Executes (.block :: around) [] where
  function := h.function
  classContext := h.classContext
  isGlobal := by simp [push, Surrounding.isScope]
  declared := by
    rintro _ ⟨⟩ name
    rfl
  initialized := rfl

/-- A function or method begins its own scope. The class around it stays the same. -/
theorem callable {kind : Surrounding} {context : FunctionContext} (function : context = .ofAround (kind :: around))
    (isScope : kind.isScope = true) (noClass : kind.class? = none) (h : Γ.classContext = .ofAround around) :
    (Γ.inFunction context).Executes (kind :: around) [] where
  function := function
  classContext := by
    rw [ClassContext.ofAround, List.findSome?_cons, noClass]
    exact h
  isGlobal := by simp [inFunction, push, isScope]
  declared := by
    rintro _ ⟨⟩ name
    rfl
  initialized := by
    cases kind with
    | initializer => cases isScope
    | _ => rfl

end Executes

end Context

/-! ## What resolution reports -/

namespace ScopeState

def Finds (s : ScopeState) (es : List (Located ScopeError)) (s' : ScopeState) : Prop :=
  s'.errors.toList.Perm (s.errors.toList ++ es)

variable {s s' s'' : ScopeState} {es es' : List (Located ScopeError)}

theorem Finds.of_errors (h : s'.errors = s.errors) : s.Finds [] s' := by
  unfold Finds
  rw [h, List.append_nil]

theorem Finds.trans (h : s.Finds es s') (h' : s'.Finds es' s'') : s.Finds (es ++ es') s'' := by
  have both := List.Perm.trans h' (List.Perm.append_right es' h)
  rwa [List.append_assoc] at both

theorem Finds.perm (h : s.Finds es s') (same : es.Perm es') : s.Finds es' s' :=
  List.Perm.trans h (List.Perm.append_left _ same)

end ScopeState

open ScopeState Resolver

namespace Resolver

variable {around : List Surrounding}

theorem reportAt_finds (name : Name) (cause : ScopeError) (s : ScopeState) :
    s.Finds [cause.at name] (reportAt name cause s).2 := by
  unfold Finds
  rw [reportAt_apply]
  simp [ScopeError.at]

theorem bind_finds (form : ReferenceForm) (name : Name) (s : ScopeState) :
    s.Finds [] (Resolver.bind form name s).2 := by
  rw [bind_eq]
  exact .of_errors (errors_record _ _ _ _)

theorem bindVariable_finds {s : ScopeState} (h : s.context.Evaluates around) (name : Name) :
    s.Finds ((Site.variable name).violations around) (bindVariable name s).2 := by
  have initializer := h.initializer name.text
  rw [Site.violations]
  by_cases own : (s.scopes.head?.bind fun scope => scope.find? name.text) = some false
  · rw [bindVariable_eq, if_pos own, if_pos (initializer.1 own)]
    exact (reportAt_finds name .ownInitializer s).trans (bind_finds .var name _)
  · rw [bindVariable_of_passed own, if_neg fun found => own (initializer.2 found)]
    exact .of_errors (errors_record _ _ _ _)

theorem bindThis_finds {s : ScopeState} (h : s.context.Evaluates around) (line : Int) :
    s.Finds ((Site.this line).violations around) (bindThis line s).2 := by
  have classContext : s.classContext = .ofAround around := h.classContext
  have bound := bind_finds .this ⟨Keyword.thisWord.text, line⟩ s
  rw [Site.violations]
  unfold bindThis
  rw [get_bind, classContext, ClassContext.ofAround]
  rcases around.findSome? Surrounding.class? with _ | ⟨name, _ | superclass⟩
  · exact reportAt_finds _ _ s
  · exact bound
  · simp only [Option.map_some, ClassContext.ofDeclaration]
    split <;> exact bound

theorem bindSuper_finds {s : ScopeState} (h : s.context.Evaluates around) (line : Int) :
    s.Finds ((Site.super line).violations around) (bindSuper line s).2 := by
  have classContext : s.classContext = .ofAround around := h.classContext
  have reported (cause : ScopeError) : s.Finds [cause.atKeyword line .superWord]
      ((do reportAtKeyword line .superWord cause
           Resolver.bind .super ⟨Keyword.superWord.text, line⟩ : Resolver Binding) s).2 :=
    (reportAt_finds _ cause s).trans (bind_finds _ _ _)
  rw [Site.violations]
  unfold bindSuper
  rw [get_bind, classContext, ClassContext.ofAround]
  rcases around.findSome? Surrounding.class? with _ | ⟨name, _ | superclass⟩
  · exact reported _
  · exact reported _
  · by_cases own : superclass.text = name.text
    · simp only [Option.map_some, ClassContext.ofDeclaration, own, if_true]
      exact reported _
    · simp only [Option.map_some, ClassContext.ofDeclaration, own, if_false]
      exact bind_finds _ _ s

end Resolver

namespace Expr

variable {around : List Surrounding}

mutual

theorem resolve_finds (e : Expr Unit) {s : ScopeState} (h : s.context.Evaluates around) :
    s.Finds (e.sites.flatMap (Site.violations around)) (e.resolve s).2 := by
  match e with
  | .literal _ => exact .of_errors rfl
  | .grouping e => exact e.resolve_finds h
  | .unary _ _ e => exact e.resolve_finds h
  | .binary _ _ a b | .logical _ _ a b =>
      rw [sites, List.flatMap_append]
      exact (a.resolve_finds h).trans (b.resolve_finds (by rwa [(a.resolve_leads s).context]))
  | .var n _ =>
      rw [sites, List.flatMap_singleton]
      exact bindVariable_finds h n
  | .assign n _ v =>
      have value := v.resolve_finds h
      have bound := value.trans (bind_finds .assign n _)
      rwa [List.append_nil] at bound
  | .call f _ es =>
      rw [sites, List.flatMap_append]
      exact (f.resolve_finds h).trans (resolveAll_finds es (by rwa [(f.resolve_leads s).context]))
  | .get e _ => exact e.resolve_finds h
  | .set e _ v =>
      -- The value is visited first.
      rw [sites, List.flatMap_append]
      have value := v.resolve_finds h
      have object := e.resolve_finds (s := (v.resolve s).2) (by rwa [(v.resolve_leads s).context])
      exact (value.trans object).perm List.perm_append_comm
  | .this l _ =>
      rw [sites, List.flatMap_singleton]
      exact bindThis_finds h l
  | .super l _ _ =>
      rw [sites, List.flatMap_singleton]
      exact bindSuper_finds h l

theorem resolveAll_finds (es : List (Expr Unit)) {s : ScopeState} (h : s.context.Evaluates around) :
    s.Finds ((sitesAll es).flatMap (Site.violations around)) (resolveAll es s).2 := by
  match es with
  | [] => exact .of_errors rfl
  | e :: es =>
      rw [sitesAll, List.flatMap_append]
      exact (e.resolve_finds h).trans (resolveAll_finds es (by rwa [(e.resolve_leads s).context]))

end

theorem resolve_finds_occurrences (e : Expr Unit) {s : ScopeState} (h : s.context.Evaluates around) :
    s.Finds ((e.occurrences around).flatMap Occurrence.violations) (e.resolve s).2 := by
  rw [occurrences, List.flatMap_map]
  exact e.resolve_finds h

theorem resolve?_finds (e : Option (Expr Unit)) {s : ScopeState} (h : s.context.Evaluates around) :
    s.Finds ((occurrences? around e).flatMap Occurrence.violations) (resolve? e s).2 := by
  cases e with
  | none => exact .of_errors rfl
  | some e => exact e.resolve_finds_occurrences h

end Expr

/-- What the rule for declarations forbids of the given names where those of `before` are declared. -/
def redeclared (around : List Surrounding) (before names : List Name) : List (Located ScopeError) :=
  if around.any Surrounding.isScope then (Name.repeatedAfter before names).map ScopeError.alreadyDeclared.at else []

section Declarations

variable {around : List Surrounding} {names : List Name} {s : ScopeState}

theorem redeclared_nil (around : List Surrounding) (before : List Name) : redeclared around before [] = [] := by
  unfold redeclared
  split <;> rfl

theorem redeclared_append (around : List Surrounding) (before names more : List Name) :
    redeclared around before (names ++ more) =
      redeclared around before names ++ redeclared around (before ++ names) more := by
  unfold redeclared
  split
  · rw [Name.repeatedAfter_append, List.map_append]
  · rfl

/-- In a scope of its own, the rule is the one for the scope. -/
theorem redeclared_scope {around : List Surrounding} (isLocal : around.any Surrounding.isScope = true)
    (names : List Name) : redeclared around [] names = (Site.scope names).violations around := by
  rw [redeclared, if_pos isLocal, Site.violations, Name.repeated_eq]

namespace Resolver

theorem declare_finds (h : s.context.Executes around names) (name : Name) :
    s.Finds (redeclared around names [name]) (declare name s).2 := by
  have isGlobal := h.isGlobal
  have declared := h.declared
  rw [declare_eq]
  unfold redeclared
  obtain ⟨scopes, kind, classContext, errors, references⟩ := s
  cases scopes with
  | nil =>
      rw [isGlobal.1 rfl]
      exact .of_errors rfl
  | cons scope outer =>
      have isLocal : around.any Surrounding.isScope = true := by
        rw [← Bool.not_eq_false, ← isGlobal]
        exact List.cons_ne_nil _ _
      have known := declared scope rfl name.text
      dsimp only
      rw [isLocal, Name.repeatedAfter, Table.contains, known, if_pos rfl]
      by_cases again : name.text ∈ names.map Name.text
      · rw [if_pos again, if_pos again]
        exact reportAt_finds name .alreadyDeclared _
      · rw [if_neg again, if_neg again]
        exact .of_errors rfl

theorem declareAndDefine_finds (h : s.context.Executes around names) (name : Name) :
    s.Finds (redeclared around names [name]) (declareAndDefine name s).2 := by
  rw [declareAndDefine_apply]
  exact declare_finds h name

theorem parameters_finds (h : s.context.Executes around names) (params : List Name) :
    s.Finds (redeclared around names params) (params.forM declareAndDefine s).2 := by
  induction params generalizing s names with
  | nil =>
      rw [redeclared_nil]
      exact .of_errors rfl
  | cons name params ih =>
      rw [← List.singleton_append, redeclared_append, List.singleton_append, forM_cons_apply]
      refine (declareAndDefine_finds h name).trans (ih ?_)
      rw [(declareAndDefine_leads name s).context]
      exact h.mark name

theorem bindSuperclass_finds (h : s.context.Executes around names) (name : Name) (superclass : Name × Unit) :
    s.Finds ((Site.classDecl name (some superclass.1)).violations around ++
      (Site.variable superclass.1).violations around) (bindSuperclass name superclass s).2 := by
  have passed : (Site.variable superclass.1).violations around = [] := by simp [Site.violations, h.initialized]
  rw [passed, List.append_nil, Site.violations]
  unfold bindSuperclass
  by_cases own : superclass.1.text = name.text
  · simp only [own, if_true]
    exact reportAt_finds superclass.1 .inheritsFromItself s
  · simp only [own, if_false]
    have bound := bindVariable_finds h.evaluates superclass.1
    rwa [passed] at bound

theorem checkReturn_finds (h : s.context.Executes around names) (line : Int) (hasValue : Bool) :
    s.Finds ((Site.ret line hasValue).violations around) (checkReturn line hasValue s).2 := by
  have function : s.function = .ofAround around := h.function
  have inside : FunctionContext.ofAround around = _ ↔ _ := FunctionContext.ofAround_eq_outside
  have initializes : FunctionContext.ofAround around = _ ↔ _ := FunctionContext.ofAround_eq_initializer
  rw [← function] at inside initializes
  rw [Site.violations]
  obtain ⟨scopes, kind, classContext, errors, references⟩ := s
  have report := reportAt_finds ⟨Keyword.returnWord.text, line⟩
  cases kind with
  | outside =>
      have other : (around.find? Surrounding.isCallable).any Surrounding.initializes = false :=
        Bool.eq_false_iff.2 fun h => nomatch initializes.2 h
      rw [inside.1 rfl, other]
      cases hasValue <;> exact report .returnOutsideFunction _
  | function | method =>
      have callable : around.any Surrounding.isCallable = true :=
        Bool.eq_true_of_not_eq_false fun h => nomatch inside.2 h
      have other : (around.find? Surrounding.isCallable).any Surrounding.initializes = false :=
        Bool.eq_false_iff.2 fun h => nomatch initializes.2 h
      rw [callable, other]
      cases hasValue <;> exact .of_errors rfl
  | initializer =>
      have callable : around.any Surrounding.isCallable = true :=
        Bool.eq_true_of_not_eq_false fun h => nomatch inside.2 h
      rw [callable, initializes.1 rfl]
      cases hasValue with
      | false => exact .of_errors rfl
      | true => exact report .returnFromInitializer _

end Resolver

end Declarations

theorem Stmt.declaredAll_cons (t : Stmt Unit) (ts : List (Stmt Unit)) :
    Stmt.declaredAll (t :: ts) = t.declared?.toList ++ Stmt.declaredAll ts := by
  unfold Stmt.declaredAll
  rw [List.filterMap_cons]
  cases t.declared? <;> rfl

theorem perm_append_append {α : Type} (as bs cs ds : List α) :
    ((as ++ bs) ++ (cs ++ ds)).Perm ((as ++ cs) ++ (bs ++ ds)) := by
  rw [List.append_assoc, List.append_assoc]
  exact List.Perm.append_left as (List.perm_append_comm_assoc bs cs ds)

/-! ## Statements and functions -/

/-- Wherever its surroundings are known, the statement has what they forbid reported. -/
def Stmt.ReportsViolations (t : Stmt Unit) : Prop :=
  ∀ ⦃around : List Surrounding⦄ ⦃names : List Name⦄ ⦃s : ScopeState⦄, s.context.Executes around names →
    s.Finds ((t.occurrences around).flatMap Occurrence.violations ++ redeclared around names t.declared?.toList)
      (t.resolve s).2

def Stmt.AllReportViolations (ts : List (Stmt Unit)) : Prop :=
  ∀ ⦃around : List Surrounding⦄ ⦃names : List Name⦄ ⦃s : ScopeState⦄, s.context.Executes around names →
    s.Finds ((Stmt.occurrencesAll around ts).flatMap Occurrence.violations ++
      redeclared around names (Stmt.declaredAll ts)) (Stmt.resolveAll ts s).2

def FunctionDecl.ReportsViolations (d : FunctionDecl Unit) : Prop :=
  ∀ ⦃around : List Surrounding⦄ ⦃kind : Surrounding⦄ ⦃context : FunctionContext⦄ ⦃s : ScopeState⦄,
    context = .ofAround (kind :: around) → kind.isScope = true → kind.class? = none →
      s.classContext = .ofAround around →
        s.Finds ((d.occurrences kind around).flatMap Occurrence.violations) (d.resolve context s).2

def FunctionDecl.MethodsReportViolations (ds : List (FunctionDecl Unit)) : Prop :=
  ∀ ⦃around : List Surrounding⦄ ⦃s : ScopeState⦄, s.classContext = .ofAround around →
    s.Finds ((FunctionDecl.occurrencesMethods around ds).flatMap Occurrence.violations)
      (FunctionDecl.resolveMethods ds s).2

namespace Stmt

variable {around : List Surrounding} {names : List Name} {s : ScopeState} {t b : Stmt Unit}
  {ts : List (Stmt Unit)} {d : FunctionDecl Unit} {ds : List (FunctionDecl Unit)}

/-- Of a statement that declares nothing, only what stands in it is reported. -/
theorem ReportsViolations.inside (ht : t.ReportsViolations) (none : t.declared? = none)
    (h : s.context.Executes around names) :
    s.Finds ((t.occurrences around).flatMap Occurrence.violations) (t.resolve s).2 := by
  have found := ht h
  rwa [none, Option.toList, redeclared_nil, List.append_nil] at found

theorem resolve?_finds {o : Option (Stmt Unit)} (declares : ∀ u ∈ o, u.declared? = none)
    (ho : ∀ u ∈ o, u.ReportsViolations) (h : s.context.Executes around names) :
    s.Finds ((Stmt.occurrences? around o).flatMap Occurrence.violations) (Stmt.resolve? o s).2 := by
  cases o with
  | none => exact .of_errors rfl
  | some t => exact (ho t rfl).inside (declares t rfl) h

theorem reportsViolations_var (n : Name) (e : Option (Expr Unit)) : (Stmt.var n e).ReportsViolations := by
  intro around names s h
  have declared := declare_finds h n
  have inside : (declare n s).2.context.Evaluates (.initializer n :: around) := by
    rw [(declare_leads n s).context]
    exact h.initializer n
  have initializer := Expr.resolve?_finds e inside
  show s.Finds _ (define n (Expr.resolve? e (declare n s).2).2).2
  rw [define_apply, Stmt.occurrences]
  exact (declared.trans initializer).perm List.perm_append_comm

theorem reportsViolations_block (hts : AllReportViolations ts) : (Stmt.block ts).ReportsViolations := by
  intro around names s h
  have inner := hts (s := s.push .empty) h.block
  rw [redeclared_scope rfl] at inner
  rw [Stmt.declared?, Option.toList, redeclared_nil, List.append_nil]
  exact inner.perm List.perm_append_comm

theorem reportsViolations_function (hd : d.ReportsViolations) : (Stmt.function d).ReportsViolations := by
  intro around names s h
  have declared := declareAndDefine_finds h d.name
  have context := (declareAndDefine_leads d.name s).context
  have classContext : (declareAndDefine d.name s).2.classContext = .ofAround around :=
    (congrArg Context.classContext context).trans (h.mark d.name).classContext
  have function : FunctionContext.function = .ofAround (.function :: around) := rfl
  exact (declared.trans (hd function rfl rfl classContext)).perm List.perm_append_comm

/-- The methods of a class are visited in the scopes of its body, whatever is around the class. -/
theorem classBody_finds (hds : FunctionDecl.MethodsReportViolations ds) (n : Name) (c : Option (Name × Unit))
    (around : List Surrounding) (s : ScopeState) :
    s.Finds ((FunctionDecl.occurrencesMethods (.classBody n (c.map Prod.fst) :: around) ds).flatMap
        Occurrence.violations)
      (inClass (.ofDeclaration n c) (inClassScopes c.isSome (FunctionDecl.resolveMethods ds)) s).2 := by
  have classContext : ClassContext.ofDeclaration n c = .ofAround (.classBody n (c.map Prod.fst) :: around) := by
    cases c <;> rfl
  have inner (scope : Scope) (s' : ScopeState) (same : s'.classContext = .ofDeclaration n c) :=
    hds (s := s'.push scope) (same.trans classContext)
  unfold inClassScopes
  cases c.isSome with
  | false => exact inner thisScope { s with classContext := .ofDeclaration n c } rfl
  | true => exact inner thisScope (ScopeState.push { s with classContext := .ofDeclaration n c } superScope) rfl

theorem reportsViolations_classDecl (hds : FunctionDecl.MethodsReportViolations ds) (n : Name)
    (c : Option (Name × Unit)) : (Stmt.classDecl n c ds).ReportsViolations := by
  intro around names s h
  have declared := declareAndDefine_finds h n
  rw [Stmt.occurrences]
  cases c with
  | none =>
      have methods := classBody_finds hds n none around (declareAndDefine n s).2
      exact (declared.trans methods).perm List.perm_append_comm
  | some superclass =>
      have afterName : (declareAndDefine n s).2.context.Executes around (names ++ [n]) := by
        rw [(declareAndDefine_leads n s).context]
        exact h.mark n
      have bound := bindSuperclass_finds afterName n superclass
      have methods := classBody_finds hds n (some superclass) around
        (bindSuperclass n superclass (declareAndDefine n s).2).2
      have found := declared.trans (bound.trans methods)
      rw [List.flatMap_append]
      simp only [Option.elim_some, List.flatMap_cons, List.flatMap_nil, List.append_nil]
      exact found.perm List.perm_append_comm

theorem reportsViolations_ite (c : Expr Unit) (declares : t.declared? = none) (proper : t.Proper)
    (ht : t.ReportsViolations) {o : Option (Stmt Unit)} (declares' : ∀ u ∈ o, u.declared? = none)
    (ho : ∀ u ∈ o, u.ReportsViolations) : (Stmt.ite c t o).ReportsViolations := by
  intro around names s h
  have condition := c.resolve_finds_occurrences h.evaluates
  have context := (c.resolve_leads s).context
  have afterCondition : (c.resolve s).2.context.Executes around names := by rwa [context]
  have taken := ht.inside declares afterCondition
  have context' := (Stmt.resolve_leads t proper (c.resolve s).2).context
  rw [Context.after_of_declared _ declares, context] at context'
  have afterTaken : (t.resolve (c.resolve s).2).2.context.Executes around names := by rwa [context']
  have other := resolve?_finds declares' ho afterTaken
  rw [Stmt.declared?, Option.toList, redeclared_nil, List.append_nil, Stmt.occurrences, List.flatMap_append,
    List.flatMap_append]
  exact (condition.trans taken).trans other

theorem reportsViolations_ret (l : Int) (e : Option (Expr Unit)) : (Stmt.ret l e).ReportsViolations := by
  intro around names s h
  have checked := checkReturn_finds h l e.isSome
  have afterCheck : (checkReturn l e.isSome s).2.context.Evaluates around := by
    rw [(checkReturn_leads l e.isSome s).context]
    exact h.evaluates
  rw [Stmt.declared?, Option.toList, redeclared_nil, List.append_nil, Stmt.resolve_ret]
  exact checked.trans (Expr.resolve?_finds e afterCheck)

theorem reportsViolations_loop (c : Expr Unit) (declares : b.declared? = none) (hb : b.ReportsViolations) :
    (Stmt.loop c b).ReportsViolations := by
  intro around names s h
  have condition := c.resolve_finds_occurrences h.evaluates
  have afterCondition : (c.resolve s).2.context.Executes around names := by rwa [(c.resolve_leads s).context]
  rw [Stmt.declared?, Option.toList, redeclared_nil, List.append_nil, Stmt.occurrences, List.flatMap_append]
  exact condition.trans (hb.inside declares afterCondition)

theorem allReportViolations_cons (proper : t.Proper) (ht : t.ReportsViolations) (hts : AllReportViolations ts) :
    AllReportViolations (t :: ts) := by
  intro around names s h
  have afterFirst : (t.resolve s).2.context.Executes around (names ++ t.declared?.toList) := by
    rw [(Stmt.resolve_leads t proper s).context]
    exact h.after t
  rw [Stmt.occurrencesAll, List.flatMap_append, Stmt.declaredAll_cons, redeclared_append]
  exact ((ht h).trans (hts afterFirst)).perm (perm_append_append _ _ _ _)

end Stmt

namespace FunctionDecl

variable {d : FunctionDecl Unit} {ds : List (FunctionDecl Unit)}

theorem reportsViolations_mk {b : List (Stmt Unit)} (hb : Stmt.AllReportViolations b) (n : Name) (ps : List Name) :
    (FunctionDecl.mk n ps b).ReportsViolations := by
  intro around kind context s function isScope noClass h
  have inner : Context.Executes (ScopeState.push { s with function := context } .empty).context
      (kind :: around) [] := .callable (Γ := s.context) function isScope noClass h
  have params := parameters_finds inner ps
  have afterParams : (ps.forM declareAndDefine
      (ScopeState.push { s with function := context } .empty)).2.context.Executes (kind :: around) ps := by
    rw [(parameters_leads ps _).context]
    exact inner.markAll ps
  have isLocal : (kind :: around).any Surrounding.isScope = true := by simp [isScope]
  rw [FunctionDecl.occurrences, List.flatMap_cons, Occurrence.violations, ← redeclared_scope isLocal,
    redeclared_append, List.append_assoc]
  exact (params.trans (hb afterParams)).perm (List.Perm.append_left _ List.perm_append_comm)

theorem methodsReportViolations_cons (hd : d.ReportsViolations) (hds : MethodsReportViolations ds) :
    MethodsReportViolations (d :: ds) := by
  intro around s h
  have method : FunctionContext.ofMethod d = .ofAround (.method d.name :: around) := rfl
  have first := hd method rfl rfl h
  have context := (d.resolve_leads (.ofMethod d) s).context
  rw [FunctionDecl.occurrencesMethods, List.flatMap_append]
  exact first.trans (hds ((congrArg Context.classContext context).trans h))

end FunctionDecl

mutual

theorem Stmt.resolve_finds (t : Stmt Unit) (proper : t.Proper) : t.ReportsViolations := by
  match t, proper with
  | .expression e, _ | .print e, _ =>
      intro around names s h
      rw [Stmt.declared?, Option.toList, redeclared_nil, List.append_nil]
      exact e.resolve_finds_occurrences h.evaluates
  | .var n e, _ => exact Stmt.reportsViolations_var n e
  | .block b, .block proper => exact Stmt.reportsViolations_block (Stmt.resolveAll_finds b proper)
  | .function d, .function proper _ => exact Stmt.reportsViolations_function (FunctionDecl.resolve_finds d proper)
  | .classDecl n c ms, .classDecl _ _ proper =>
      exact Stmt.reportsViolations_classDecl (FunctionDecl.resolveMethods_finds ms proper) n c
  | .ite c t none, .ite _ declares proper declares' _ =>
      exact Stmt.reportsViolations_ite c declares proper (Stmt.resolve_finds t proper) declares' nofun
  | .ite c t (some u), .ite _ declares proper declares' proper' =>
      refine Stmt.reportsViolations_ite c declares proper (Stmt.resolve_finds t proper) declares' ?_
      rintro _ ⟨⟩
      exact Stmt.resolve_finds u (proper' u rfl)
  | .ret l e, _ => exact Stmt.reportsViolations_ret l e
  | .loop c b, .loop _ declares proper =>
      exact Stmt.reportsViolations_loop c declares (Stmt.resolve_finds b proper)

theorem Stmt.resolveAll_finds (ts : List (Stmt Unit)) (proper : ∀ t ∈ ts, t.Proper) :
    Stmt.AllReportViolations ts := by
  match ts with
  | [] =>
      intro around names s _
      rw [Stmt.declaredAll, List.filterMap_nil, redeclared_nil]
      exact .of_errors rfl
  | t :: ts =>
      have first := proper t List.mem_cons_self
      exact Stmt.allReportViolations_cons first (Stmt.resolve_finds t first)
        (Stmt.resolveAll_finds ts fun u hu => proper u (List.mem_cons_of_mem _ hu))

theorem FunctionDecl.resolve_finds (d : FunctionDecl Unit) (proper : d.Proper) : d.ReportsViolations := by
  match d, proper with
  | .mk n ps b, .mk _ proper => exact FunctionDecl.reportsViolations_mk (Stmt.resolveAll_finds b proper) n ps

theorem FunctionDecl.resolveMethods_finds (ds : List (FunctionDecl Unit)) (proper : ∀ d ∈ ds, d.Proper) :
    FunctionDecl.MethodsReportViolations ds := by
  match ds with
  | [] =>
      intro around s _
      exact .of_errors rfl
  | d :: ds =>
      exact FunctionDecl.methodsReportViolations_cons (FunctionDecl.resolve_finds d (proper d List.mem_cons_self))
        (FunctionDecl.resolveMethods_finds ds fun e he => proper e (List.mem_cons_of_mem _ he))

end

theorem Context.top_executes : Context.top.Executes [] [] where
  function := rfl
  classContext := rfl
  isGlobal := by simp [top]
  declared := nofun
  initialized := rfl

/-- For every text, the errors that resolution reports are, in some order, what the rules forbid in its program. -/
theorem Stmt.resolveProgram_violations (source : String) :
    (Stmt.resolveProgram (Stmt.parse (Scan.ofString source).list).value).errors.Perm
      (Stmt.violations (Stmt.parse (Scan.ofString source).list).value) := by
  have found := Stmt.resolveAll_finds _ (Stmt.parse_scan_proper source) (s := Resolver.start) Context.top_executes
  rw [redeclared, List.any_nil, if_neg Bool.false_ne_true, List.append_nil] at found
  exact found

end LoxScript
