import LoxScript.Proofs.Enclose.Basic
import LoxScript.Proofs.Environment.Agreement

/-!
# Leaving out an empty scope

A scope that declares nothing is never what a name is tied to. Without it, references that lead beyond it have one
scope less to pass, all others stay as they are, and the code is as well scoped as it was.
-/

namespace LoxScript

/-! ## The code without the scope -/

/-- A reference without the scope that is `k` scopes further out. -/
def Binding.without (k : Nat) : Binding → Binding
  | .global => .global
  | .scoped d => .scoped (if k < d then d - 1 else d)

namespace Expr

mutual

def without (k : Nat) : Expr Binding → Expr Binding
  | .literal v => .literal v
  | .grouping e => .grouping (e.without k)
  | .unary op l e => .unary op l (e.without k)
  | .binary op l a b => .binary op l (a.without k) (b.without k)
  | .logical op l a b => .logical op l (a.without k) (b.without k)
  | .var n ref => .var n (ref.without k)
  | .assign n ref v => .assign n (ref.without k) (v.without k)
  | .call f l es => .call (f.without k) l (withoutAll k es)
  | .get e n => .get (e.without k) n
  | .set e n v => .set (e.without k) n (v.without k)
  | .this l ref => .this l (ref.without k)
  | .super l m ref => .super l m (ref.without k)

def withoutAll (k : Nat) : List (Expr Binding) → List (Expr Binding)
  | [] => []
  | e :: es => e.without k :: withoutAll k es

end

theorem withoutAll_eq_map (k : Nat) (es : List (Expr Binding)) : withoutAll k es = es.map (without k) := by
  induction es with
  | nil => rfl
  | cons e es ih => simp only [withoutAll, List.map_cons, ih]

end Expr

mutual

/-- Inside the scopes of the statement itself, the scope that is left out is further out. -/
def Stmt.without (k : Nat) : Stmt Binding → Stmt Binding
  | .expression e => .expression (e.without k)
  | .print e => .print (e.without k)
  | .var n e => .var n (e.map (Expr.without k))
  | .block b => .block (Stmt.withoutAll (k + 1) b)
  | .function d => .function (d.without (k + 1))
  | .classDecl n c ms => .classDecl n (c.map fun p => (p.1, p.2.without k))
      (FunctionDecl.withoutAll (Binding.classDepth c.isSome k + 1) ms)
  | .ite c t e => .ite (c.without k) (t.without k) (Stmt.without? k e)
  | .ret l e => .ret l (e.map (Expr.without k))
  | .loop c b => .loop (c.without k) (b.without k)

/-- The scope that is left out lies `k` scopes outside that of the parameters and the body. -/
def FunctionDecl.without (k : Nat) : FunctionDecl Binding → FunctionDecl Binding
  | .mk n ps b => .mk n ps (Stmt.withoutAll k b)

def Stmt.withoutAll (k : Nat) : List (Stmt Binding) → List (Stmt Binding)
  | [] => []
  | s :: ss => s.without k :: Stmt.withoutAll k ss

def Stmt.without? (k : Nat) : Option (Stmt Binding) → Option (Stmt Binding)
  | none => none
  | some s => some (s.without k)

def FunctionDecl.withoutAll (k : Nat) : List (FunctionDecl Binding) → List (FunctionDecl Binding)
  | [] => []
  | d :: ds => d.without k :: FunctionDecl.withoutAll k ds

end

theorem FunctionDecl.withoutAll_eq_map (k : Nat) (ds : List (FunctionDecl Binding)) :
    FunctionDecl.withoutAll k ds = ds.map (FunctionDecl.without k) := by
  induction ds with
  | nil => rfl
  | cons d ds ih => simp only [FunctionDecl.withoutAll, List.map_cons, ih]

theorem FunctionDecl.without_name (k : Nat) (d : FunctionDecl Binding) : (d.without k).name = d.name := by
  cases d
  rfl

theorem Stmt.declared?_without (k : Nat) (s : Stmt Binding) : (s.without k).declared? = s.declared? := by
  cases s with
  | function d => exact congrArg some (d.without_name (k + 1))
  | expression _ | print _ | var _ _ | block _ | classDecl _ _ _ | ite _ _ _ | ret _ _ | loop _ _ => rfl

theorem FunctionContext.ofMethod_without (k : Nat) (d : FunctionDecl Binding) :
    FunctionContext.ofMethod (d.without k) = .ofMethod d := by
  cases d
  rfl

theorem ClassContext.ofDeclaration_without (k : Nat) (n : Name) (c : Option (Name × Binding)) :
    ClassContext.ofDeclaration n (c.map fun p => (p.1, p.2.without k)) = .ofDeclaration n c := by
  cases c <;> rfl

/-! ## Only the notes at references differ -/

mutual

theorem Expr.forget_without (k : Nat) (e : Expr Binding) : (e.without k).forget = e.forget := by
  match e with
  | .literal _ | .this _ _ | .super _ _ _ | .var _ _ => rfl
  | .grouping e | .unary _ _ e | .get e _ => rw [Expr.without, Expr.forget, Expr.forget, e.forget_without]
  | .binary _ _ a b | .logical _ _ a b =>
      rw [Expr.without, Expr.forget, Expr.forget, a.forget_without, b.forget_without]
  | .assign _ _ v => rw [Expr.without, Expr.forget, Expr.forget, v.forget_without]
  | .call f _ es => rw [Expr.without, Expr.forget, Expr.forget, f.forget_without, Expr.forgetAll_withoutAll]
  | .set e _ v => rw [Expr.without, Expr.forget, Expr.forget, e.forget_without, v.forget_without]

theorem Expr.forgetAll_withoutAll (k : Nat) (es : List (Expr Binding)) :
    Expr.forgetAll (Expr.withoutAll k es) = Expr.forgetAll es := by
  match es with
  | [] => rfl
  | e :: es => rw [Expr.withoutAll, Expr.forgetAll, Expr.forgetAll, e.forget_without, Expr.forgetAll_withoutAll]

end

theorem Expr.forget?_without (k : Nat) (e : Option (Expr Binding)) :
    (e.map (Expr.without k)).map Expr.forget = e.map Expr.forget := by
  cases e with
  | none => rfl
  | some e => exact congrArg some (e.forget_without k)

mutual

theorem Stmt.forget_without (k : Nat) (s : Stmt Binding) : (s.without k).forget = s.forget := by
  match s with
  | .expression e | .print e => rw [Stmt.without, Stmt.forget, Stmt.forget, e.forget_without]
  | .var n e => rw [Stmt.without, Stmt.forget, Stmt.forget, Expr.forget?_without]
  | .block b => rw [Stmt.without, Stmt.forget, Stmt.forget, Stmt.forgetAll_withoutAll]
  | .function d => rw [Stmt.without, Stmt.forget, Stmt.forget, d.forget_without]
  | .classDecl n c ms =>
      rw [Stmt.without, Stmt.forget, Stmt.forget, FunctionDecl.forgetAll_withoutAll, Option.map_map]
      rfl
  | .ite c t e =>
      rw [Stmt.without, Stmt.forget, Stmt.forget, c.forget_without, t.forget_without, Stmt.forget?_without]
  | .ret l e => rw [Stmt.without, Stmt.forget, Stmt.forget, Expr.forget?_without]
  | .loop c b => rw [Stmt.without, Stmt.forget, Stmt.forget, c.forget_without, b.forget_without]

theorem FunctionDecl.forget_without (k : Nat) (d : FunctionDecl Binding) : (d.without k).forget = d.forget := by
  match d with
  | .mk n ps b => rw [FunctionDecl.without, FunctionDecl.forget, FunctionDecl.forget, Stmt.forgetAll_withoutAll]

theorem Stmt.forgetAll_withoutAll (k : Nat) (ss : List (Stmt Binding)) :
    Stmt.forgetAll (Stmt.withoutAll k ss) = Stmt.forgetAll ss := by
  match ss with
  | [] => rfl
  | s :: ss => rw [Stmt.withoutAll, Stmt.forgetAll, Stmt.forgetAll, s.forget_without, Stmt.forgetAll_withoutAll]

theorem Stmt.forget?_without (k : Nat) (s : Option (Stmt Binding)) :
    Stmt.forget? (Stmt.without? k s) = Stmt.forget? s := by
  match s with
  | none => rfl
  | some s => exact congrArg some (s.forget_without k)

theorem FunctionDecl.forgetAll_withoutAll (k : Nat) (ds : List (FunctionDecl Binding)) :
    FunctionDecl.forgetAll (FunctionDecl.withoutAll k ds) = FunctionDecl.forgetAll ds := by
  match ds with
  | [] => rfl
  | d :: ds =>
      rw [FunctionDecl.withoutAll, FunctionDecl.forgetAll, FunctionDecl.forgetAll, d.forget_without,
        FunctionDecl.forgetAll_withoutAll]

end

/-! ## The scopes without the scope -/

variable {P : Context → Node Binding → Prop} {Γ : Context} {k : Nat}

namespace Context

/-- The scope `k` steps out declares nothing. -/
def Blank (Γ : Context) (k : Nat) : Prop :=
  Γ.scopes[k]? = some .empty

def without (Γ : Context) (k : Nat) : Context :=
  { Γ with scopes := Γ.scopes.eraseIdx k }

/-- A scope in which something is declared is not the one that is left out. -/
theorem mark_without (Γ : Context) (hk : k ≠ 0) (name : String) (passed : Bool) :
    (Γ.mark name passed).without k = (Γ.without k).mark name passed := by
  obtain ⟨scopes, _, _⟩ := Γ
  obtain ⟨k, rfl⟩ := Nat.exists_eq_succ_of_ne_zero hk
  cases scopes <;> rfl

theorem Blank.mark (h : Γ.Blank k) (hk : k ≠ 0) (name : String) (passed : Bool) : (Γ.mark name passed).Blank k := by
  obtain ⟨scopes, _, _⟩ := Γ
  obtain ⟨k, rfl⟩ := Nat.exists_eq_succ_of_ne_zero hk
  cases scopes <;> exact h

theorem markAll_without (Γ : Context) (hk : k ≠ 0) (names : List Name) :
    (Γ.markAll names).without k = (Γ.without k).markAll names := by
  induction names generalizing Γ with
  | nil => rfl
  | cons name names ih =>
      have step := ih (Γ.mark name.text true)
      rw [mark_without Γ hk] at step
      exact step

theorem Blank.markAll (h : Γ.Blank k) (hk : k ≠ 0) (names : List Name) : (Γ.markAll names).Blank k := by
  induction names generalizing Γ with
  | nil => exact h
  | cons name names ih => exact ih (h.mark hk name.text true)

theorem after_without (Γ : Context) (hk : k ≠ 0) (s : Stmt Binding) :
    (Γ.after s).without k = (Γ.without k).after (s.without k) := by
  unfold after
  rw [s.declared?_without]
  cases s.declared? with
  | none => rfl
  | some n => exact mark_without Γ hk n.text true

theorem Blank.after (h : Γ.Blank k) (hk : k ≠ 0) (s : Stmt Binding) : (Γ.after s).Blank k := by
  unfold Context.after
  cases s.declared? with
  | none => exact h
  | some n => exact h.mark hk n.text true

theorem inClass_without (Γ : Context) (kind : ClassContext) (hasSuperclass : Bool) :
    (Γ.inClass kind hasSuperclass).without (Binding.classDepth hasSuperclass k) =
      (Γ.without k).inClass kind hasSuperclass := by
  cases hasSuperclass <;> rfl

theorem Blank.inClass (h : Γ.Blank k) (kind : ClassContext) (hasSuperclass : Bool) :
    (Γ.inClass kind hasSuperclass).Blank (Binding.classDepth hasSuperclass k) := by
  cases hasSuperclass <;> exact h

theorem MayDeclare.without {n : Name} (h : Γ.MayDeclare n) (hk : k ≠ 0) : (Γ.without k).MayDeclare n := by
  refine ⟨h.identifier, fun scope hs => h.fresh scope ?_⟩
  obtain ⟨scopes, _, _⟩ := Γ
  obtain ⟨k, rfl⟩ := Nat.exists_eq_succ_of_ne_zero hk
  cases scopes <;> exact hs

theorem MayDeclareAll.without {ps : List Name} (h : Γ.MayDeclareAll ps) (hk : k ≠ 0) :
    (Γ.without k).MayDeclareAll ps := by
  induction ps generalizing Γ with
  | nil => trivial
  | cons p ps ih =>
      have rest := ih h.2
      rw [mark_without Γ hk] at rest
      exact ⟨h.1.without hk, rest⟩

end Context

/-! ## References -/

/-- A name is found where it was, seen without the empty scope. -/
theorem distance?_eraseIdx {name : String} {scopes : List Scope} (h : scopes[k]? = some .empty) :
    distance? name (scopes.eraseIdx k) = (distance? name scopes).map fun d => if k < d then d - 1 else d := by
  induction scopes generalizing k with
  | nil => cases h
  | cons scope outer ih =>
      cases k with
      | zero =>
          cases h
          have absent : (.empty : Scope).contains name = false := rfl
          rw [List.eraseIdx_cons_zero, distance?, absent]
          cases distance? name outer <;> rfl
      | succ k =>
          rw [List.eraseIdx_cons_succ, distance?, distance?, ih h]
          cases scope.contains name with
          | true => rfl
          | false =>
              cases distance? name outer with
              | none => rfl
              | some d =>
                  simp only [Bool.false_eq_true, if_false, Option.map_some, Option.some.injEq]
                  split <;> split <;> omega

/-- No name is found in an empty scope. -/
theorem distance?_ne_of_empty {name : String} {scopes : List Scope} (h : scopes[k]? = some .empty) :
    distance? name scopes ≠ some k := by
  intro found
  obtain ⟨scope, hscope, contains⟩ := distance?_eq_some found
  rw [h] at hscope
  cases hscope
  cases contains

theorem Context.Blank.ofScopes_without (h : Γ.Blank k) (name : String) :
    (Binding.ofScopes name Γ.scopes).without k = .ofScopes name (Γ.without k).scopes := by
  unfold Binding.ofScopes Context.without
  rw [distance?_eraseIdx h]
  cases distance? name Γ.scopes <;> rfl

theorem Context.Blank.ofScopes_ne (h : Γ.Blank k) (name : String) : Binding.ofScopes name Γ.scopes ≠ .scoped k := by
  unfold Binding.ofScopes
  cases found : distance? name Γ.scopes with
  | none => nofun
  | some d =>
      intro same
      cases same
      exact distance?_ne_of_empty h found

theorem Context.Reads.without {n : Name} {ref : Binding} (h : Γ.Reads n ref) (blank : Γ.Blank k) (ready : Γ.Ready) :
    (Γ.without k).Reads n (ref.without k) := by
  obtain ⟨passed, rfl⟩ := h
  refine ⟨?_, blank.ofScopes_without n.text⟩
  have outer := ready.passed
  obtain ⟨scopes, _, _⟩ := Γ
  cases scopes with
  | nil => cases blank
  | cons scope scopes =>
      cases k with
      | succ k => exact passed
      | zero =>
          -- The innermost scope is the next one then, in which all variables have passed their initializers.
          intro unpassed
          obtain ⟨next, hnext, found⟩ := Option.bind_eq_some_iff.1 unpassed
          cases outer next (List.mem_of_mem_head? hnext) n.text false found

/-! ## Well-scoped code -/

mutual

theorem Expr.Scoped.without (e : Expr Binding) (h : e.Scoped P Γ) (blank : Γ.Blank k) (ready : Γ.Ready) :
    (e.without k).Scoped Unlabelled (Γ.without k) := by
  match e with
  | .literal v => exact .literal trivial
  | .grouping e =>
      cases h with
      | grouping _ h => exact .grouping trivial (Expr.Scoped.without e h blank ready)
  | .unary op l e =>
      cases h with
      | unary _ h => exact .unary trivial (Expr.Scoped.without e h blank ready)
  | .binary op l a b =>
      cases h with
      | binary _ ha hb =>
          exact .binary trivial (Expr.Scoped.without a ha blank ready) (Expr.Scoped.without b hb blank ready)
  | .logical op l a b =>
      cases h with
      | logical _ ha hb =>
          exact .logical trivial (Expr.Scoped.without a ha blank ready) (Expr.Scoped.without b hb blank ready)
  | .var n ref =>
      cases h with
      | var _ id reads => exact .var trivial id (reads.without blank ready)
  | .assign n ref v =>
      cases h with
      | assign _ id bound h =>
          subst bound
          exact .assign trivial id (blank.ofScopes_without n.text) (Expr.Scoped.without v h blank ready)
  | .call f l es =>
      cases h with
      | call _ hf hes =>
          exact .call trivial (Expr.Scoped.without f hf blank ready) (Expr.Scoped.withoutAll es hes blank ready)
  | .get e n =>
      cases h with
      | get _ h => exact .get trivial (Expr.Scoped.without e h blank ready)
  | .set e n v =>
      cases h with
      | set _ he hv =>
          exact .set trivial (Expr.Scoped.without e he blank ready) (Expr.Scoped.without v hv blank ready)
  | .this l ref =>
      cases h with
      | this _ hc bound =>
          subst bound
          exact .this trivial hc (blank.ofScopes_without _)
  | .super l m ref =>
      cases h with
      | super _ hc bound =>
          subst bound
          exact .super trivial hc (blank.ofScopes_without _)

theorem Expr.Scoped.withoutAll (es : List (Expr Binding)) (h : ∀ e ∈ es, e.Scoped P Γ) (blank : Γ.Blank k)
    (ready : Γ.Ready) : ∀ e ∈ Expr.withoutAll k es, e.Scoped Unlabelled (Γ.without k) := by
  match es with
  | [] => simp [Expr.withoutAll]
  | e :: es =>
      have first := Expr.Scoped.without e (h e List.mem_cons_self) blank ready
      have rest := Expr.Scoped.withoutAll es (fun v hv => h v (List.mem_cons_of_mem _ hv)) blank ready
      intro v hv
      rcases List.mem_cons.1 hv with rfl | hv
      · exact first
      · exact rest v hv

end

theorem Expr.scoped_without? {e : Option (Expr Binding)} (h : ∀ v ∈ e, v.Scoped P Γ) (blank : Γ.Blank k)
    (ready : Γ.Ready) : ∀ v ∈ e.map (Expr.without k), v.Scoped Unlabelled (Γ.without k) := by
  cases e with
  | none => simp
  | some e =>
      intro v hv
      cases hv
      exact Expr.Scoped.without e (h e rfl) blank ready

theorem Stmt.superclass_without {n : Name} {c : Option (Name × Binding)}
    (h : ∀ p ∈ c, p.1.text ≠ n.text ∧ p.1.IsIdentifier ∧ Γ.Reads p.1 p.2) (blank : Γ.Blank k) (ready : Γ.Ready) :
    ∀ p ∈ c.map fun p => (p.1, p.2.without k),
      p.1.text ≠ n.text ∧ p.1.IsIdentifier ∧ (Γ.without k).Reads p.1 p.2 := by
  cases c with
  | none => exact nofun
  | some p =>
      intro q hq
      cases hq
      obtain ⟨hne, id, reads⟩ := h p rfl
      exact ⟨hne, id, reads.without blank ready⟩

/-- Only a class that has a superclass is a derived one. -/
theorem ClassContext.isSome_of_derived {n : Name} {c : Option (Name × Binding)}
    (h : ClassContext.ofDeclaration n c = .derived) : c.isSome = true := by
  cases c with
  | none => cases h
  | some p => rfl

mutual

/-- Nothing is declared in the scope that is left out. -/
theorem Stmt.Scoped.without (s : Stmt Binding) {Γ : Context} {k : Nat} (h : s.Scoped P Γ) (blank : Γ.Blank k)
    (settled : Γ.Settled) (hk : k = 0 → s.declared? = none) : (s.without k).Scoped Unlabelled (Γ.without k) := by
  match s with
  | .expression e =>
      cases h with
      | expression _ h => exact .expression trivial (h.without e blank settled.ready)
  | .print e =>
      cases h with
      | print _ h => exact .print trivial (h.without e blank settled.ready)
  | .var n e =>
      cases h with
      | var _ hn h =>
          have inner : k ≠ 0 := fun top => nomatch hk top
          refine .var trivial (hn.without inner) ?_
          rw [← Context.mark_without Γ inner]
          exact Expr.scoped_without? h (blank.mark inner n.text false) (settled.initializer hn.identifier)
  | .block b =>
      cases h with
      | block _ h =>
          have inside : (Γ.push .empty).Blank (k + 1) := blank
          exact .block trivial (Stmts.Scoped.without b h inside settled.push (Nat.succ_ne_zero k))
  | .function d =>
      cases h with
      | function _ hn h =>
          have inner : k ≠ 0 := fun top => nomatch hk top
          have marked := settled.mark hn.identifier
          have made := FunctionDecl.Scoped.without d h (blank.mark inner d.name.text true) (marked.inFunction _)
          rw [Context.mark_without Γ inner, ← d.without_name (k + 1)] at made
          refine .function trivial ?_ made
          rw [d.without_name]
          exact hn.without inner
  | .classDecl n c ms =>
      cases h with
      | classDecl _ hn hc hms =>
          have inner : k ≠ 0 := fun top => nomatch hk top
          have marked := settled.mark hn.identifier
          have blank' := blank.mark inner n.text true
          have superclass := Stmt.superclass_without hc blank' marked.ready
          have methods := FunctionDecls.Scoped.without ms hms (blank'.inClass _ _) fun kind =>
            agreement.method_settled marked _ c.isSome kind ClassContext.isSome_of_derived
          rw [Context.inClass_without, Context.mark_without Γ inner] at methods
          rw [Context.mark_without Γ inner] at superclass
          refine .classDecl trivial (hn.without inner) superclass ?_
          rw [ClassContext.ofDeclaration_without, Option.isSome_map]
          exact methods
  | .ite c t e =>
      cases h with
      | ite _ hc ht h he h' =>
          have taken := Stmt.Scoped.without t h blank settled fun _ => ht
          have other := Stmt.Scoped.without? e he h' blank settled
          refine .ite trivial (hc.without c blank settled.ready) ((t.declared?_without k).trans ht) taken ?_ other
          cases e with
          | none => exact nofun
          | some e =>
              intro u hu
              cases hu
              exact (e.declared?_without k).trans (he e rfl)
  | .ret l e =>
      cases h with
      | ret _ hr hv h =>
          refine .ret trivial hr (fun hsome => hv ?_) (Expr.scoped_without? h blank settled.ready)
          rwa [Option.isSome_map] at hsome
  | .loop c b =>
      cases h with
      | loop _ hc hb h =>
          have body := Stmt.Scoped.without b h blank settled fun _ => hb
          exact .loop trivial (hc.without c blank settled.ready) ((b.declared?_without k).trans hb) body

theorem FunctionDecl.Scoped.without (d : FunctionDecl Binding) {kind : FunctionContext} {Γ : Context} {k : Nat}
    (h : d.Scoped P kind Γ) (blank : Γ.Blank k) (settled : (Γ.inFunction kind).Settled) :
    (d.without (k + 1)).Scoped Unlabelled kind (Γ.without k) := by
  match d with
  | .mk n ps b =>
      cases h with
      | mk hps h =>
          have inside : (Γ.inFunction kind).Blank (k + 1) := blank
          have inner : k + 1 ≠ 0 := Nat.succ_ne_zero k
          have body := Stmts.Scoped.without b h (inside.markAll inner ps) (settled.markAll hps.identifier) inner
          have params := hps.without inner
          rw [Context.markAll_without _ inner] at body
          exact .mk params body

theorem Stmts.Scoped.without (ss : List (Stmt Binding)) {Γ : Context} {k : Nat} (h : Stmts.Scoped P Γ ss)
    (blank : Γ.Blank k) (settled : Γ.Settled) (hk : k ≠ 0) :
    Stmts.Scoped Unlabelled (Γ.without k) (Stmt.withoutAll k ss) := by
  match ss with
  | [] => exact .nil
  | s :: ss =>
      cases h with
      | cons h hss =>
          have first := Stmt.Scoped.without s h blank settled fun top => absurd top hk
          have rest := Stmts.Scoped.without ss hss (blank.after hk s) (agreement.settled_after h settled) hk
          rw [Context.after_without Γ hk] at rest
          exact .cons first rest

theorem Stmt.Scoped.without? (s : Option (Stmt Binding)) {Γ : Context} {k : Nat}
    (hd : ∀ u ∈ s, u.declared? = none) (h : ∀ u ∈ s, u.Scoped P Γ) (blank : Γ.Blank k) (settled : Γ.Settled) :
    ∀ u ∈ Stmt.without? k s, u.Scoped Unlabelled (Γ.without k) := by
  match s with
  | none => exact nofun
  | some s =>
      intro u hu
      cases hu
      exact Stmt.Scoped.without s (h s rfl) blank settled fun _ => hd s rfl

theorem FunctionDecls.Scoped.without (ds : List (FunctionDecl Binding)) {Γ : Context} {k : Nat}
    (h : ∀ d ∈ ds, d.Scoped P (.ofMethod d) Γ) (blank : Γ.Blank k) (settled : ∀ kind, (Γ.inFunction kind).Settled) :
    ∀ d ∈ FunctionDecl.withoutAll (k + 1) ds, d.Scoped Unlabelled (.ofMethod d) (Γ.without k) := by
  match ds with
  | [] => exact nofun
  | d :: ds =>
      have first := FunctionDecl.Scoped.without d (h d List.mem_cons_self) blank (settled _)
      have rest := FunctionDecls.Scoped.without ds (fun e he => h e (List.mem_cons_of_mem _ he)) blank settled
      intro e he
      rcases List.mem_cons.1 he with rfl | he
      · rw [FunctionContext.ofMethod_without]
        exact first
      · exact rest e he

end

end LoxScript
