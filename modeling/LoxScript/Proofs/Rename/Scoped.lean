import LoxScript.Proofs.Rename.Basic

/-!
# Renaming keeps programs well scoped

In a scope whose variable is renamed, the new name takes the place of the old one. Since the new name occurs
nowhere else, every reference keeps its distance.
-/

namespace LoxScript

variable {P : Context → Node Binding → Prop} {σ : Renaming}

/-! ## Names are declared once in a scope -/

def Context.Has (Γ : Context) (name : String) : Prop :=
  ∃ scope ∈ Γ.scopes.head?, scope.contains name = true

theorem Context.Has.mark {Γ : Context} {name : String} (h : Γ.Has name) (other : String) (passed : Bool) :
    (Γ.mark other passed).Has name := by
  obtain ⟨scopes, _, _⟩ := Γ
  obtain ⟨scope, hs, hc⟩ := h
  cases scopes with
  | nil => cases hs
  | cons first outer =>
      cases hs
      refine ⟨_, rfl, ?_⟩
      rw [Table.contains_insert, hc, Bool.or_true]

theorem Context.has_mark {Γ : Context} (h : Γ.scopes ≠ []) (name : String) (passed : Bool) :
    (Γ.mark name passed).Has name := by
  obtain ⟨scopes, _, _⟩ := Γ
  cases scopes with
  | nil => exact absurd rfl h
  | cons scope outer =>
      refine ⟨_, rfl, ?_⟩
      simp [Table.contains_insert]

theorem Context.Has.after {Γ : Context} {name : String} (h : Γ.Has name) (s : Stmt Binding) :
    (Γ.after s).Has name := by
  unfold Context.after
  cases s.declared? with
  | none => exact h
  | some n => exact h.mark n.text true

theorem Context.MayDeclare.ne {Γ : Context} {n : Name} {name : String} (h : Γ.MayDeclare n) (hn : Γ.Has name) :
    n.text ≠ name := by
  rintro rfl
  obtain ⟨scope, hs, hc⟩ := hn
  rw [h.fresh scope hs] at hc
  cases hc

def Stmt.OnlyVar (name : String) (s : Stmt Binding) : Prop :=
  ∀ n, s.declared? = some n → n.text = name → ∃ e, s = .var n e

theorem Stmt.OnlyVar.of_ne {name : String} {s : Stmt Binding} (h : ∀ n, s.declared? = some n → n.text ≠ name) :
    s.OnlyVar name :=
  fun n hn same => absurd same (h n hn)

theorem Stmt.OnlyVar.of_none {name : String} {s : Stmt Binding} (h : s.declared? = none) : s.OnlyVar name := by
  intro n hn
  rw [h] at hn
  cases hn

theorem Stmt.OnlyVar.function_ne {d : FunctionDecl Binding} {name : String} (h : (Stmt.function d).OnlyVar name) :
    d.name.text ≠ name := by
  intro same
  obtain ⟨e, he⟩ := h d.name rfl same
  cases he

theorem Stmt.OnlyVar.classDecl_ne {n : Name} {c : Option (Name × Binding)} {ms : List (FunctionDecl Binding)}
    {name : String} (h : (Stmt.classDecl n c ms).OnlyVar name) : n.text ≠ name := by
  intro same
  obtain ⟨e, he⟩ := h n rfl same
  cases he

theorem Stmts.Scoped.fresh {Γ : Context} {ss : List (Stmt Binding)} {name : String} (h : Stmts.Scoped P Γ ss)
    (hn : Γ.Has name) : ∀ s ∈ ss, ∀ n, s.declared? = some n → n.text ≠ name := by
  induction ss generalizing Γ with
  | nil => simp
  | cons s ss ih =>
      cases h with
      | cons hs hss =>
          intro t ht n hd
          rcases List.mem_cons.1 ht with rfl | ht
          · exact (hs.mayDeclare hd).ne hn
          · exact ih hss (hn.after s) t ht n hd

/-- The name of a variable of a scope is the name of nothing else there. -/
theorem Stmts.Scoped.onlyVar {Γ : Context} {ss : List (Stmt Binding)} {name : String} (h : Stmts.Scoped P Γ ss)
    (hΓ : Γ.scopes ≠ []) (hv : Stmt.DeclaresVar name ss) : ∀ s ∈ ss, s.OnlyVar name := by
  induction ss generalizing Γ with
  | nil => simp
  | cons s ss ih =>
      cases h with
      | cons hs hss =>
          obtain ⟨n, e, hmem, htext⟩ := hv
          intro t ht
          rcases List.mem_cons.1 hmem with rfl | later
          · have declared : (Γ.after (Stmt.var n e)).Has name := by
              rw [← htext]
              exact Context.has_mark hΓ n.text true
            rcases List.mem_cons.1 ht with rfl | ht
            · intro n' hn' _
              cases hn'
              exact ⟨e, rfl⟩
            · exact .of_ne (hss.fresh declared t ht)
          · rcases List.mem_cons.1 ht with rfl | ht
            · refine .of_ne fun n' hn' same => ?_
              have declared : (Γ.after t).Has name := by
                unfold Context.after
                rw [hn', ← same]
                exact Context.has_mark hΓ n'.text true
              exact hss.fresh declared (.var n e) later n rfl htext
            · exact ih hss (Context.after_ne_nil hΓ s) ⟨n, e, later, htext⟩ t ht

theorem Context.Has.markAll {Γ : Context} {name : String} (h : Γ.Has name) (ps : List Name) :
    (Γ.markAll ps).Has name := by
  induction ps generalizing Γ with
  | nil => exact h
  | cons p ps ih => exact ih (h.mark p.text true)

theorem Context.has_markAll {Γ : Context} (h : Γ.scopes ≠ []) {ps : List Name} {p : Name} (hp : p ∈ ps) :
    (Γ.markAll ps).Has p.text := by
  induction ps generalizing Γ with
  | nil => cases hp
  | cons q ps ih =>
      rcases List.mem_cons.1 hp with rfl | hp
      · exact (Context.has_mark h p.text true).markAll ps
      · exact ih (Context.mark_ne_nil h q.text true) hp

theorem FunctionDecl.Scoped.onlyVar {Γ : Context} {kind : FunctionContext} {d : FunctionDecl Binding}
    {name : String} (h : d.Scoped P kind Γ)
    (hv : (∃ p ∈ d.params, p.text = name) ∨ Stmt.DeclaresVar name d.body) : ∀ s ∈ d.body, s.OnlyVar name := by
  cases h with
  | @mk _ _ _ ps b _ hb =>
      have inside : (Γ.inFunction kind).scopes ≠ [] := by simp [Context.inFunction, Context.push]
      rcases hv with ⟨p, hp, rfl⟩ | hv
      · exact fun s hs => .of_ne (hb.fresh (Context.has_markAll inside hp) s hs)
      · exact hb.onlyVar (Context.markAll_ne_nil inside ps) hv

/-! ## Scopes in which a variable is renamed -/

/-- The scopes around a place that lies `k` scopes inside the scope of the variable, before and after it is
renamed. -/
inductive Renaming.Relabels (σ : Renaming) : Nat → List Scope → List Scope → Prop where
  | here {scope scope' outer} : (∀ x, scope'.find? x = scope.find? (σ.swap x)) →
      scope.contains σ.new = false → Relabels σ 0 (scope :: outer) (scope' :: outer)
  | inner {k scope scopes scopes'} : scope.contains σ.new = false → Relabels σ k scopes scopes' →
      Relabels σ (k + 1) (scope :: scopes) (scope :: scopes')

theorem Binding.ofScopes_eq_scoped {name : String} {scopes : List Scope} {d : Nat} :
    Binding.ofScopes name scopes = .scoped d ↔ distance? name scopes = some d := by
  unfold Binding.ofScopes
  cases distance? name scopes with
  | none => simp
  | some e => simp

theorem Binding.not_contains_of_ofScopes {name : String} {scope : Scope} {outer : List Scope}
    (h : Binding.ofScopes name (scope :: outer) ≠ .scoped 0) : scope.contains name = false := by
  cases hc : scope.contains name with
  | false => rfl
  | true =>
      rw [Ne, Binding.ofScopes_eq_scoped] at h
      simp [distance?, hc] at h

namespace Renaming

theorem used_text {k : Nat} {n : Name} {ref : Binding} (h : n.text ≠ σ.new) :
    (σ.used (some k) n ref).text = if ref = .scoped k then σ.swap n.text else n.text := by
  unfold used
  by_cases href : ref = .scoped k
  · subst href
    simp [σ.name_text h]
  · have other : (some k).map Binding.scoped ≠ some ref := by
      simpa using Ne.symm href
    rw [if_neg other, if_neg href]

/-- A name that is not in the scope is not renamed to one that is. -/
theorem contains_swap {scope : Scope} {x : String} (hnew : scope.contains σ.new = false) (hne : x ≠ σ.new)
    (hx : scope.contains x = false) : scope.contains (σ.swap x) = false := by
  by_cases h : x = σ.old
  · subst h
    rw [σ.swap_old]
    exact hnew
  · rw [σ.swap_of_ne h hne]
    exact hx

theorem find?_swap {scope : Scope} {x : String} (hnew : scope.contains σ.new = false) (hne : x ≠ σ.new)
    (hx : scope.contains x = false) : scope.find? (σ.swap x) = none := by
  have absent := contains_swap hnew hne hx
  unfold Table.contains at absent
  simpa using absent

/-- References keep their distance. -/
theorem Relabels.distance? {k : Nat} {scopes scopes' : List Scope} (h : σ.Relabels k scopes scopes') {n : Name}
    (hn : n.text ≠ σ.new) :
    distance? (σ.used (some k) n (.ofScopes n.text scopes)).text scopes' = distance? n.text scopes := by
  induction h with
  | @here scope scope' outer hswap hnew =>
      have contains : ∀ x, scope'.contains x = scope.contains (σ.swap x) := by
        intro x
        unfold Table.contains
        rw [hswap]
      rw [used_text hn]
      cases hc : scope.contains n.text with
      | true =>
          have here : Binding.ofScopes n.text (scope :: outer) = .scoped 0 := by
            rw [Binding.ofScopes_eq_scoped]
            simp [LoxScript.distance?, hc]
          rw [if_pos here]
          simp [LoxScript.distance?, contains, swap_swap, hc]
      | false =>
          have further : Binding.ofScopes n.text (scope :: outer) ≠ .scoped 0 := by
            rw [Ne, Binding.ofScopes_eq_scoped]
            simp [LoxScript.distance?, hc]
          rw [if_neg further]
          simp [LoxScript.distance?, contains, contains_swap hnew hn hc, hc]
  | @inner k scope scopes scopes' hnew _ ih =>
      rw [used_text hn] at ih ⊢
      cases hc : scope.contains n.text with
      | true =>
          have here : Binding.ofScopes n.text (scope :: scopes) ≠ .scoped (k + 1) := by
            rw [Ne, Binding.ofScopes_eq_scoped]
            simp [LoxScript.distance?, hc]
          rw [if_neg here]
          simp [LoxScript.distance?, hc]
      | false =>
          have further : Binding.ofScopes n.text (scope :: scopes) = .scoped (k + 1) ↔
              Binding.ofScopes n.text scopes = .scoped k := by
            rw [Binding.ofScopes_eq_scoped, Binding.ofScopes_eq_scoped]
            simp [LoxScript.distance?, hc]
          have outside : scope.contains
              (if Binding.ofScopes n.text scopes = .scoped k then σ.swap n.text else n.text) = false := by
            split
            · exact contains_swap hnew hn hc
            · exact hc
          simp only [further, LoxScript.distance?, outside, hc, ih]

theorem Relabels.ofScopes {k : Nat} {scopes scopes' : List Scope} (h : σ.Relabels k scopes scopes') {n : Name}
    (hn : n.text ≠ σ.new) :
    Binding.ofScopes (σ.used (some k) n (.ofScopes n.text scopes)).text scopes' = .ofScopes n.text scopes := by
  have same := h.distance? hn
  unfold Binding.ofScopes at same ⊢
  rw [same]

/-- The surroundings of a place before and after the variable is renamed. -/
structure Surrounds (σ : Renaming) (k : Nat) (Γ Γ' : Context) : Prop where
  scopes : σ.Relabels k Γ.scopes Γ'.scopes
  function : Γ'.function = Γ.function
  classContext : Γ'.classContext = Γ.classContext

namespace Surrounds

variable {k : Nat} {Γ Γ' : Context}

theorem push (h : σ.Surrounds k Γ Γ') {scope : Scope} (hs : scope.contains σ.new = false) :
    σ.Surrounds (k + 1) (Γ.push scope) (Γ'.push scope) :=
  ⟨.inner hs h.scopes, h.function, h.classContext⟩

theorem inFunction (h : σ.Surrounds k Γ Γ') (kind : FunctionContext) :
    σ.Surrounds (k + 1) (Γ.inFunction kind) (Γ'.inFunction kind) :=
  ⟨.inner rfl h.scopes, rfl, h.classContext⟩

/-- The surroundings of a declaration, which takes the new name if it declares the variable. -/
theorem mark (h : σ.Surrounds k Γ Γ') {n : Name} (hn : n.text ≠ σ.new) (passed : Bool) :
    σ.Surrounds k (Γ.mark n.text passed) (Γ'.mark (σ.declared (some k) n).text passed) := by
  obtain ⟨scopes, _, _⟩ := Γ
  obtain ⟨scopes', _, _⟩ := Γ'
  obtain ⟨hscopes, hfunction, hclass⟩ := h
  have fresh : ∀ scope : Scope, scope.contains σ.new = false →
      (scope.insert n.text passed).contains σ.new = false := by
    intro scope hs
    rw [Table.contains_insert, hs]
    simpa using hn.symm
  refine ⟨?_, ?_, ?_⟩
  · cases hscopes with
    | @here scope scope' outer hswap hnew =>
        refine .here (fun x => ?_) (fresh _ hnew)
        rw [Table.find?_insert, Table.find?_insert, hswap]
        have same : x = (σ.declared (some 0) n).text ↔ σ.swap x = n.text := by
          rw [declared, if_pos rfl, σ.name_text hn, σ.swap_eq_iff]
        simp only [same]
    | @inner k _ _ _ hnew h =>
        have kept : σ.declared (some (k + 1)) n = n := σ.declared_inner (some k) n
        rw [kept]
        exact .inner (fresh _ hnew) h
  · cases hscopes <;> exact hfunction
  · cases hscopes <;> exact hclass

theorem mayDeclare (h : σ.Surrounds k Γ Γ') (plain : σ.Plain) {n : Name} (hn : n.text ≠ σ.new)
    (hΓ : Γ.MayDeclare n) : Γ'.MayDeclare (σ.declared (some k) n) := by
  obtain ⟨scopes, _, _⟩ := Γ
  obtain ⟨scopes', _, _⟩ := Γ'
  obtain ⟨hscopes, _, _⟩ := h
  cases hscopes with
  | @here scope scope' outer hswap hnew =>
      have declared : σ.declared (some 0) n = σ.name n := if_pos rfl
      rw [declared]
      refine ⟨?_, fun other hother => ?_⟩
      · exact plain.name hΓ.identifier
      · cases hother
        have fresh : scope.contains n.text = false := hΓ.fresh scope rfl
        unfold Table.contains at fresh ⊢
        rw [hswap, σ.name_text hn, σ.swap_swap, fresh]
  | @inner k _ _ _ hnew h =>
      have kept : σ.declared (some (k + 1)) n = n := σ.declared_inner (some k) n
      rw [kept]
      exact ⟨hΓ.identifier, hΓ.fresh⟩

theorem reads (h : σ.Surrounds k Γ Γ') {n : Name} {ref : Binding} (hn : n.text ≠ σ.new) (hr : Γ.Reads n ref) :
    Γ'.Reads (σ.used (some k) n ref) ref := by
  have bound := hr.bound
  subst bound
  refine ⟨?_, (h.scopes.ofScopes hn).symm⟩
  have passed := hr.passed
  obtain ⟨scopes, _, _⟩ := Γ
  obtain ⟨scopes', _, _⟩ := Γ'
  obtain ⟨hscopes, _, _⟩ := h
  dsimp only at passed hscopes ⊢
  rw [used_text hn]
  cases hscopes with
  | @here scope scope' outer hswap hnew =>
      simp only [List.head?_cons, Option.bind_some] at passed ⊢
      rw [hswap]
      split
      · rw [σ.swap_swap]
        exact passed
      · next further =>
          rw [find?_swap hnew hn (Binding.not_contains_of_ofScopes further)]
          simp
  | @inner k scope scopes scopes' hnew h =>
      simp only [List.head?_cons, Option.bind_some] at passed ⊢
      split
      · next further =>
          have outside : Binding.ofScopes n.text (scope :: scopes) ≠ .scoped 0 := by
            rw [further]
            simp
          rw [find?_swap hnew hn (Binding.not_contains_of_ofScopes outside)]
          simp
      · exact passed

/-- Nothing changes for the variables that the machine itself binds. -/
theorem ofScopes_keyword (h : σ.Surrounds k Γ Γ') (plain : σ.Plain) (kw : Keyword) :
    Binding.ofScopes kw.text Γ'.scopes = .ofScopes kw.text Γ.scopes := by
  have new : (⟨σ.new, 0⟩ : Name).IsIdentifier := plain.new
  have hn : kw.text ≠ σ.new := (new.ne_keyword kw).symm
  have same := h.scopes.ofScopes (n := ⟨kw.text, 0⟩) hn
  rw [used_text hn, plain.swap_keyword, ite_self] at same
  exact same

theorem markAll (h : σ.Surrounds k Γ Γ') {ps : List Name} (hps : ∀ p ∈ ps, p.text ≠ σ.new) :
    σ.Surrounds k (Γ.markAll ps) (Γ'.markAll (ps.map (σ.declared (some k)))) := by
  induction ps generalizing Γ Γ' with
  | nil => exact h
  | cons p ps ih => exact ih (h.mark (hps p List.mem_cons_self) true) fun q hq => hps q (List.mem_cons_of_mem _ hq)

theorem mayDeclareAll (h : σ.Surrounds k Γ Γ') (plain : σ.Plain) {ps : List Name} (hps : ∀ p ∈ ps, p.text ≠ σ.new)
    (hΓ : Γ.MayDeclareAll ps) : Γ'.MayDeclareAll (ps.map (σ.declared (some k))) := by
  induction ps generalizing Γ Γ' with
  | nil => trivial
  | cons p ps ih =>
      have hp := hps p List.mem_cons_self
      exact ⟨h.mayDeclare plain hp hΓ.1, ih (h.mark hp true) (fun q hq => hps q (List.mem_cons_of_mem _ hq)) hΓ.2⟩

/-- The surroundings of a function or a class, which keep their names. -/
theorem mark_other (h : σ.Surrounds k Γ Γ') {n : Name} (hn : n.text ≠ σ.new) (hold : k = 0 → n.text ≠ σ.old)
    (passed : Bool) : σ.Surrounds k (Γ.mark n.text passed) (Γ'.mark n.text passed) := by
  have marked := h.mark hn passed
  rw [declared_of_ne hold] at marked
  exact marked

/-- The surroundings of the code that follows a statement. -/
theorem after (h : σ.Surrounds k Γ Γ') {s : Stmt Binding} (hn : σ.new ∉ s.names) (hold : k = 0 → s.OnlyVar σ.old) :
    σ.Surrounds k (Γ.after s) (Γ'.after (s.rename σ (some k))) := by
  cases s with
  | var n e =>
      simp only [Stmt.names, List.mem_cons, not_or] at hn
      exact h.mark (Ne.symm hn.1) true
  | function d =>
      simp only [Stmt.names, List.mem_cons, not_or] at hn
      have marked := h.mark_other (Ne.symm hn.1) (fun hk => (hold hk).function_ne) true
      show σ.Surrounds k _ (Γ'.mark (d.rename σ ((some k).map (· + 1))).name.text true)
      rw [d.rename_name]
      exact marked
  | classDecl n c ms =>
      simp only [Stmt.names, List.mem_cons, not_or] at hn
      exact h.mark_other (Ne.symm hn.1) (fun hk => (hold hk).classDecl_ne) true
  | expression _ | print _ | block _ | ite _ _ _ | ret _ _ | loop _ _ => exact h

theorem inClass (h : σ.Surrounds k Γ Γ') (plain : σ.Plain) (kind : ClassContext) (hasSuperclass : Bool) :
    ∃ j, Renaming.inClass hasSuperclass (some k) = some j ∧
      σ.Surrounds j (Γ.inClass kind hasSuperclass) (Γ'.inClass kind hasSuperclass) := by
  have new : (⟨σ.new, 0⟩ : Name).IsIdentifier := plain.new
  have this : thisScope.contains σ.new = false := by
    simpa [thisScope, Table.contains] using new.ne_keyword .thisWord
  have super : superScope.contains σ.new = false := by
    simpa [superScope, Table.contains] using new.ne_keyword .superWord
  have inside : σ.Surrounds k { Γ with classContext := kind } { Γ' with classContext := kind } :=
    ⟨h.scopes, h.function, rfl⟩
  cases hasSuperclass with
  | false => exact ⟨k + 1, rfl, inside.push this⟩
  | true => exact ⟨k + 1 + 1, rfl, (inside.push super).push this⟩

/-- Around the scope of the variable nothing changes. -/
theorem own (Γ : Context) : σ.Surrounds 0 (Γ.push .empty) (Γ.push .empty) :=
  ⟨.here (fun _ => rfl) rfl, rfl, rfl⟩

end Surrounds

end Renaming

/-! ## The renamed program is well scoped -/

variable {k : Nat} {Γ Γ' : Context}

theorem Expr.Scoped.rename (plain : σ.Plain) (hs : σ.Surrounds k Γ Γ') {e : Expr Binding} (h : e.Scoped P Γ)
    (hn : σ.new ∉ e.names) : (e.rename σ (some k)).Scoped Unlabelled Γ' := by
  induction h with
  | literal => exact .literal trivial
  | grouping _ _ ih => exact .grouping trivial (ih hn)
  | unary _ _ ih => exact .unary trivial (ih hn)
  | binary _ _ _ iha ihb =>
      simp only [Expr.names, List.mem_append, not_or] at hn
      exact .binary trivial (iha hn.1) (ihb hn.2)
  | logical _ _ _ iha ihb =>
      simp only [Expr.names, List.mem_append, not_or] at hn
      exact .logical trivial (iha hn.1) (ihb hn.2)
  | @var n ref _ id reads =>
      simp only [Expr.names, List.mem_singleton] at hn
      exact .var trivial (plain.used id _ _) (hs.reads (Ne.symm hn) reads)
  | @assign n ref v _ id bound _ ih =>
      simp only [Expr.names, List.mem_cons, not_or] at hn
      subst bound
      exact .assign trivial (plain.used id _ _) (hs.scopes.ofScopes (Ne.symm hn.1)).symm (ih hn.2)
  | call _ _ _ ihf ihes =>
      simp only [Expr.names, List.mem_append, not_or] at hn
      refine .call trivial (ihf hn.1) fun e' he' => ?_
      rw [Expr.renameAll_eq_map] at he'
      obtain ⟨e, he, rfl⟩ := List.mem_map.1 he'
      exact ihes e he fun hx => hn.2 (Expr.mem_namesAll.2 ⟨e, he, hx⟩)
  | get _ _ ih => exact .get trivial (ih hn)
  | set _ _ _ ihe ihv =>
      simp only [Expr.names, List.mem_append, not_or] at hn
      exact .set trivial (ihe hn.1) (ihv hn.2)
  | this _ inside bound =>
      refine .this trivial ?_ ?_
      · rw [hs.classContext]
        exact inside
      · rw [hs.ofScopes_keyword plain]
        exact bound
  | super _ inside bound =>
      refine .super trivial ?_ ?_
      · rw [hs.classContext]
        exact inside
      · rw [hs.ofScopes_keyword plain]
        exact bound

theorem Expr.scoped_rename? (plain : σ.Plain) (hs : σ.Surrounds k Γ Γ') {e : Option (Expr Binding)}
    (h : ∀ v ∈ e, v.Scoped P Γ) (hn : σ.new ∉ Expr.names? e) :
    ∀ v ∈ e.map (Expr.rename σ (some k)), v.Scoped Unlabelled Γ' := by
  cases e with
  | none => simp
  | some e =>
      intro v hv
      cases hv
      exact (h e rfl).rename plain hs hn

theorem FunctionDecl.ofMethod_rename (σ : Renaming) (k : Option Nat) (d : FunctionDecl Binding) :
    FunctionContext.ofMethod (d.rename σ k) = .ofMethod d := by
  unfold FunctionContext.ofMethod FunctionDecl.isInitializer
  rw [d.rename_name]

theorem Renaming.used_text_ne {n other : Name} {k : Nat} {ref : Binding} (hn : n.text ≠ σ.new)
    (hother : other.text ≠ σ.new) (hne : n.text ≠ other.text) : (σ.used (some k) n ref).text ≠ other.text := by
  rw [used_text hn]
  split
  · by_cases h : n.text = σ.old
    · rw [h, σ.swap_old]
      exact hother.symm
    · rw [σ.swap_of_ne h hn]
      exact hne
  · exact hne

/-- The superclass is another class also under its new name. -/
theorem ClassContext.ofDeclaration_used {n : Name} {c : Option (Name × Binding)} {k : Nat} (hn : n.text ≠ σ.new)
    (hc : ∀ p ∈ c, p.1.text ≠ σ.new ∧ p.1.text ≠ n.text) :
    ClassContext.ofDeclaration n (c.map fun p => (σ.used (some k) p.1 p.2, p.2)) = .ofDeclaration n c := by
  cases c with
  | none => rfl
  | some p =>
      obtain ⟨other, hne⟩ := hc p rfl
      have hne' : (σ.used (some k) p.1 p.2).text ≠ n.text := Renaming.used_text_ne other hn hne
      simp only [Option.map_some, ClassContext.ofDeclaration, if_neg hne, if_neg hne']

/-! ### Statements and functions -/

def Stmt.RenameScoped (P : Context → Node Binding → Prop) (σ : Renaming) (s : Stmt Binding) : Prop :=
  ∀ ⦃k Γ Γ'⦄, s.Scoped P Γ → σ.Surrounds k Γ Γ' → σ.new ∉ s.names → (k = 0 → s.OnlyVar σ.old) →
    (s.rename σ (some k)).Scoped Unlabelled Γ'

def Stmt.RenameAllScoped (P : Context → Node Binding → Prop) (σ : Renaming) (ss : List (Stmt Binding)) : Prop :=
  ∀ ⦃k Γ Γ'⦄, Stmts.Scoped P Γ ss → σ.Surrounds k Γ Γ' → σ.new ∉ Stmt.namesAll ss →
    (k = 0 → ∀ s ∈ ss, s.OnlyVar σ.old) → Stmts.Scoped Unlabelled Γ' (Stmt.renameAll σ (some k) ss)

def FunctionDecl.RenameScoped (P : Context → Node Binding → Prop) (σ : Renaming) (d : FunctionDecl Binding) : Prop :=
  ∀ ⦃kind k Γ Γ'⦄, d.Scoped P kind Γ → σ.Surrounds k (Γ.inFunction kind) (Γ'.inFunction kind) → σ.new ∉ d.names →
    (k = 0 → ∀ s ∈ d.body, s.OnlyVar σ.old) → (d.rename σ (some k)).Scoped Unlabelled kind Γ'

/-- The methods of a class stand in its body, so the variable is declared further out. -/
def FunctionDecl.RenameMethodsScoped (P : Context → Node Binding → Prop) (σ : Renaming)
    (ds : List (FunctionDecl Binding)) : Prop :=
  ∀ ⦃k Γ Γ'⦄, (∀ d ∈ ds, d.Scoped P (.ofMethod d) Γ) → σ.Surrounds k Γ Γ' → σ.new ∉ FunctionDecl.namesAll ds →
    ∀ d ∈ FunctionDecl.renameAll σ (some (k + 1)) ds, d.Scoped Unlabelled (.ofMethod d) Γ'

namespace Stmt

variable {t : Stmt Binding} {ss : List (Stmt Binding)} {d : FunctionDecl Binding} {ds : List (FunctionDecl Binding)}

theorem scoped_rename? (σ : Renaming) {o : Option (Stmt Binding)} (hd : ∀ u ∈ o, u.declared? = none)
    (ho : ∀ u ∈ o, u.RenameScoped P σ) (h : ∀ u ∈ o, u.Scoped P Γ) (hs : σ.Surrounds k Γ Γ')
    (hn : σ.new ∉ Stmt.names? o) :
    ∀ u ∈ Stmt.rename? σ (some k) o, u.declared? = none ∧ u.Scoped Unlabelled Γ' := by
  cases o with
  | none =>
      intro u hu
      cases hu
  | some t =>
      intro u hu
      cases hu
      exact ⟨rename_declared? σ _ (hd t rfl), ho t rfl (h t rfl) hs hn fun _ => .of_none (hd t rfl)⟩

theorem renameScoped_block (hss : RenameAllScoped P σ ss) : (Stmt.block ss).RenameScoped P σ := by
  intro k Γ Γ' h hs hn _
  cases h with
  | block _ h => exact .block trivial (hss h (hs.push rfl) hn fun hk => absurd hk (Nat.succ_ne_zero k))

section Plain

variable (plain : σ.Plain)

include plain

theorem renameScoped_var (n : Name) (e : Option (Expr Binding)) : (Stmt.var n e).RenameScoped P σ := by
  intro k Γ Γ' h hs hn _
  cases h with
  | var _ hd h =>
      simp only [Stmt.names, List.mem_cons, not_or] at hn
      have declared := hs.mayDeclare plain (Ne.symm hn.1) hd
      exact .var trivial declared (Expr.scoped_rename? plain (hs.mark (Ne.symm hn.1) false) h hn.2)

theorem renameScoped_function (hd : d.RenameScoped P σ) : (Stmt.function d).RenameScoped P σ := by
  intro k Γ Γ' h hs hn hold
  have other : k = 0 → d.name.text ≠ σ.old := fun hk => (hold hk).function_ne
  cases h with
  | function _ declares h =>
      simp only [Stmt.names, List.mem_cons, not_or] at hn
      have declared := hs.mayDeclare plain (Ne.symm hn.1) declares
      rw [Renaming.declared_of_ne other] at declared
      have marked := hs.mark_other (Ne.symm hn.1) other true
      have made := hd h (marked.inFunction _) hn.2 fun hk => absurd hk (Nat.succ_ne_zero k)
      rw [← d.rename_name σ (some (k + 1))] at declared made
      exact .function trivial declared made

theorem renameScoped_classDecl (hds : FunctionDecl.RenameMethodsScoped P σ ds) (n : Name)
    (c : Option (Name × Binding)) : (Stmt.classDecl n c ds).RenameScoped P σ := by
  intro k Γ Γ' h hs hn hold
  have other : k = 0 → n.text ≠ σ.old := fun hk => (hold hk).classDecl_ne
  cases h with
  | classDecl _ declares hc hms =>
      simp only [Stmt.names, List.mem_cons, List.mem_append, Option.mem_toList, not_or] at hn
      obtain ⟨hn, hnc, hnms⟩ := hn
      have declared := hs.mayDeclare plain (Ne.symm hn) declares
      rw [Renaming.declared_of_ne other] at declared
      have marked := hs.mark_other (Ne.symm hn) other true
      have superclass : ∀ p ∈ c, p.1.text ≠ σ.new := by
        rintro p hp same
        exact hnc (by rw [hp, Option.map_some, same])
      obtain ⟨j, hj, inside⟩ := marked.inClass plain (.ofDeclaration n c) c.isSome
      refine .classDecl trivial declared (fun p' hp' => ?_) ?_
      · obtain ⟨p, hp, rfl⟩ := Option.map_eq_some_iff.1 hp'
        obtain ⟨hne, id, reads⟩ := hc p hp
        have hp := superclass p hp
        exact ⟨Renaming.used_text_ne hp (Ne.symm hn) hne, plain.used id _ _, marked.reads hp reads⟩
      · have kind := ClassContext.ofDeclaration_used (k := k) (Ne.symm hn) fun p hp =>
          ⟨superclass p hp, (hc p hp).1⟩
        rw [kind, Option.isSome_map, hj]
        exact hds hms inside hnms

theorem renameScoped_ite (c : Expr Binding) (ht : t.RenameScoped P σ) {o : Option (Stmt Binding)}
    (ho : ∀ u ∈ o, u.RenameScoped P σ) : (Stmt.ite c t o).RenameScoped P σ := by
  intro k Γ Γ' h hs hn _
  cases h with
  | ite _ hc declares h declares' h' =>
      simp only [Stmt.names, List.mem_append, not_or] at hn
      have taken := ht h hs hn.2.1 fun _ => .of_none declares
      have other := scoped_rename? σ declares' ho h' hs hn.2.2
      exact .ite trivial (hc.rename plain hs hn.1) (rename_declared? σ _ declares) taken
        (fun u hu => (other u hu).1) (fun u hu => (other u hu).2)

theorem renameScoped_ret (l : Int) (e : Option (Expr Binding)) : (Stmt.ret l e).RenameScoped P σ := by
  intro k Γ Γ' h hs hn _
  cases h with
  | ret _ hr hv h =>
      rw [← hs.function] at hr hv
      refine .ret trivial hr (fun hsome => ?_) (Expr.scoped_rename? plain hs h hn)
      rw [Option.isSome_map] at hsome
      exact hv hsome

theorem renameScoped_loop (c : Expr Binding) (ht : t.RenameScoped P σ) : (Stmt.loop c t).RenameScoped P σ := by
  intro k Γ Γ' h hs hn _
  cases h with
  | loop _ hc declares h =>
      simp only [Stmt.names, List.mem_append, not_or] at hn
      have body := ht h hs hn.2 fun _ => .of_none declares
      exact .loop trivial (hc.rename plain hs hn.1) (rename_declared? σ _ declares) body

end Plain

theorem renameAllScoped_cons (ht : t.RenameScoped P σ) (hss : RenameAllScoped P σ ss) :
    RenameAllScoped P σ (t :: ss) := by
  intro k Γ Γ' h hs hn hold
  cases h with
  | cons h rest =>
      simp only [Stmt.namesAll, List.mem_append, not_or] at hn
      have first : k = 0 → t.OnlyVar σ.old := fun hk => hold hk t List.mem_cons_self
      have later : k = 0 → ∀ s ∈ ss, s.OnlyVar σ.old := fun hk s hs => hold hk s (List.mem_cons_of_mem _ hs)
      exact .cons (ht h hs hn.1 first) (hss rest (hs.after hn.1 first) hn.2 later)

end Stmt

namespace FunctionDecl

variable {d : FunctionDecl Binding} {ds : List (FunctionDecl Binding)}

theorem renameScoped_mk (plain : σ.Plain) {b : List (Stmt Binding)} (hb : Stmt.RenameAllScoped P σ b) (n : Name)
    (ps : List Name) : (FunctionDecl.mk n ps b).RenameScoped P σ := by
  intro kind k Γ Γ' h hs hn hold
  cases h with
  | mk hps h =>
      simp only [FunctionDecl.names, List.mem_append, List.mem_map, not_or, not_exists, not_and] at hn
      exact .mk (hs.mayDeclareAll plain hn.1 hps) (hb h (hs.markAll hn.1) hn.2 hold)

theorem renameMethodsScoped_cons (hd : d.RenameScoped P σ) (hds : RenameMethodsScoped P σ ds) :
    RenameMethodsScoped P σ (d :: ds) := by
  intro k Γ Γ' h hs hn
  simp only [FunctionDecl.namesAll, List.mem_append, not_or] at hn
  have first := hd (h d List.mem_cons_self) (hs.inFunction _) hn.1 fun hk => absurd hk (Nat.succ_ne_zero k)
  have rest := hds (fun e he => h e (List.mem_cons_of_mem _ he)) hs hn.2
  intro d' hd'
  rcases List.mem_cons.1 hd' with rfl | hd'
  · rw [d.ofMethod_rename]
    exact first
  · exact rest d' hd'

end FunctionDecl

mutual

theorem Stmt.Scoped.rename (plain : σ.Plain) (s : Stmt Binding) : s.RenameScoped P σ := by
  match s with
  | .expression e =>
      intro k Γ Γ' h hs hn _
      cases h with
      | expression _ h => exact .expression trivial (h.rename plain hs hn)
  | .print e =>
      intro k Γ Γ' h hs hn _
      cases h with
      | print _ h => exact .print trivial (h.rename plain hs hn)
  | .var n e => exact Stmt.renameScoped_var plain n e
  | .block b => exact Stmt.renameScoped_block (Stmts.Scoped.rename plain b)
  | .function d => exact Stmt.renameScoped_function plain (FunctionDecl.Scoped.rename plain d)
  | .classDecl n c ms => exact Stmt.renameScoped_classDecl plain (FunctionDecls.Scoped.rename plain ms) n c
  | .ite c t none => exact Stmt.renameScoped_ite plain c (Stmt.Scoped.rename plain t) nofun
  | .ite c t (some u) =>
      refine Stmt.renameScoped_ite plain c (Stmt.Scoped.rename plain t) ?_
      rintro _ ⟨⟩
      exact Stmt.Scoped.rename plain u
  | .ret l e => exact Stmt.renameScoped_ret plain l e
  | .loop c b => exact Stmt.renameScoped_loop plain c (Stmt.Scoped.rename plain b)

theorem FunctionDecl.Scoped.rename (plain : σ.Plain) (d : FunctionDecl Binding) : d.RenameScoped P σ := by
  match d with
  | .mk n ps b => exact FunctionDecl.renameScoped_mk plain (Stmts.Scoped.rename plain b) n ps

theorem Stmts.Scoped.rename (plain : σ.Plain) (ss : List (Stmt Binding)) : Stmt.RenameAllScoped P σ ss := by
  match ss with
  | [] => exact fun _ _ _ _ _ _ _ => .nil
  | s :: ss => exact Stmt.renameAllScoped_cons (Stmt.Scoped.rename plain s) (Stmts.Scoped.rename plain ss)

theorem FunctionDecls.Scoped.rename (plain : σ.Plain) (ds : List (FunctionDecl Binding)) :
    FunctionDecl.RenameMethodsScoped P σ ds := by
  match ds with
  | [] =>
      intro k Γ Γ' _ _ _ d hd
      cases hd
  | d :: ds =>
      exact FunctionDecl.renameMethodsScoped_cons (FunctionDecl.Scoped.rename plain d)
        (FunctionDecls.Scoped.rename plain ds)

end

/-! ## One variable of a program -/

theorem Renaming.plain_of_declares {Γ : Context} {ss : List (Stmt Binding)} (h : Stmts.Scoped P Γ ss)
    (hnew : Keyword.ofText? σ.new = none) (hv : Stmt.DeclaresVar σ.old ss) : σ.Plain := by
  obtain ⟨n, e, hmem, same⟩ := hv
  have identifier := h.identifier _ hmem n rfl
  unfold Name.IsIdentifier at identifier
  rw [same] at identifier
  exact ⟨identifier, hnew⟩

/-- Where the variable is declared in a function, it is a plain name, too. -/
theorem Renaming.plain_of_function {Γ : Context} {kind : FunctionContext} {d : FunctionDecl Binding}
    (h : d.Scoped P kind Γ) (hnew : Keyword.ofText? σ.new = none)
    (hv : (∃ p ∈ d.params, p.text = σ.old) ∨ Stmt.DeclaresVar σ.old d.body) : σ.Plain := by
  cases h with
  | mk hps hb =>
      rcases hv with ⟨p, hp, same⟩ | hv
      · have identifier := hps.identifier p hp
        unfold Name.IsIdentifier at identifier
        rw [same] at identifier
        exact ⟨identifier, hnew⟩
      · exact Renaming.plain_of_declares hb hnew hv

mutual

/-- Renaming one variable gives a well-scoped statement that declares what it declared before. -/
theorem Stmt.Renames.scoped (hnew : Keyword.ofText? σ.new = none) (s : Stmt Binding) {s' : Stmt Binding}
    {Γ : Context} (hr : Stmt.Renames σ s s') (h : s.Scoped Unlabelled Γ) (hn : σ.new ∉ s.names) :
    σ.Plain ∧ s'.Scoped Unlabelled Γ ∧ s'.declared? = s.declared? := by
  match s with
  | .block b =>
      cases h with
      | block _ h =>
          cases hr with
          | scope hv =>
              have plain := Renaming.plain_of_declares h hnew hv
              have inside : (Γ.push .empty).scopes ≠ [] := by simp [Context.push]
              have made := Stmts.Scoped.rename plain b h (.own Γ) hn fun _ => h.onlyVar inside hv
              exact ⟨plain, .block trivial made, rfl⟩
          | block hr =>
              obtain ⟨plain, made⟩ := Stmts.Renames.scoped hnew b hr h hn
              exact ⟨plain, .block trivial made, rfl⟩
  | .function d =>
      cases h with
      | function _ hd h =>
          cases hr with
          | function hr =>
              simp only [Stmt.names, List.mem_cons, not_or] at hn
              obtain ⟨plain, made, name⟩ := FunctionDecl.Renames.scoped hnew d hr h hn.2
              rw [← name] at hd made
              exact ⟨plain, .function trivial hd made, congrArg some name⟩
  | .classDecl n c ms =>
      cases h with
      | classDecl _ hd hc h =>
          cases hr with
          | classDecl hr =>
              simp only [Stmt.names, List.mem_cons, List.mem_append, not_or] at hn
              obtain ⟨plain, made⟩ := FunctionDecls.Renames.scoped hnew ms hr h hn.2.2
              exact ⟨plain, .classDecl trivial hd hc made, rfl⟩
  | .ite c t e =>
      cases h with
      | ite _ hc ht h he h' =>
          simp only [Stmt.names, List.mem_append, not_or] at hn
          cases hr with
          | thenBranch hr =>
              obtain ⟨plain, made, declared⟩ := Stmt.Renames.scoped hnew t hr h hn.2.1
              exact ⟨plain, .ite trivial hc (declared.trans ht) made he h', rfl⟩
          | @elseBranch _ _ e e' hr =>
              obtain ⟨plain, made, declared⟩ := Stmt.Renames.scoped hnew e hr (h' e rfl) hn.2.2
              refine ⟨plain, .ite trivial hc ht h (fun u hu => ?_) (fun u hu => ?_), rfl⟩
              · cases hu
                exact declared.trans (he e rfl)
              · cases hu
                exact made
  | .loop c b =>
      cases h with
      | loop _ hc hb h =>
          simp only [Stmt.names, List.mem_append, not_or] at hn
          cases hr with
          | loop hr =>
              obtain ⟨plain, made, declared⟩ := Stmt.Renames.scoped hnew b hr h hn.2
              exact ⟨plain, .loop trivial hc (declared.trans hb) made, rfl⟩
  | .expression _ | .print _ | .var _ _ | .ret _ _ => cases hr

theorem FunctionDecl.Renames.scoped (hnew : Keyword.ofText? σ.new = none) (d : FunctionDecl Binding)
    {d' : FunctionDecl Binding} {kind : FunctionContext} {Γ : Context} (hr : FunctionDecl.Renames σ d d')
    (h : d.Scoped Unlabelled kind Γ) (hn : σ.new ∉ d.names) :
    σ.Plain ∧ d'.Scoped Unlabelled kind Γ ∧ d'.name = d.name := by
  match d with
  | .mk n ps b =>
      cases hr with
      | scope hv =>
          have plain := Renaming.plain_of_function h hnew hv
          have same : σ.Surrounds 0 (Γ.inFunction kind) (Γ.inFunction kind) := .own { Γ with function := kind }
          exact ⟨plain, FunctionDecl.Scoped.rename plain _ h same hn fun _ => h.onlyVar hv, rfl⟩
      | body hr =>
          cases h with
          | mk hps h =>
              simp only [FunctionDecl.names, List.mem_append, not_or] at hn
              obtain ⟨plain, made⟩ := Stmts.Renames.scoped hnew b hr h hn.2
              exact ⟨plain, .mk hps made, rfl⟩

theorem Stmts.Renames.scoped (hnew : Keyword.ofText? σ.new = none) (ss : List (Stmt Binding))
    {ss' : List (Stmt Binding)} {Γ : Context} (hr : Stmts.Renames σ ss ss') (h : Stmts.Scoped Unlabelled Γ ss)
    (hn : σ.new ∉ Stmt.namesAll ss) : σ.Plain ∧ Stmts.Scoped Unlabelled Γ ss' := by
  match ss with
  | [] => cases hr
  | s :: ss =>
      simp only [Stmt.namesAll, List.mem_append, not_or] at hn
      cases h with
      | cons h hss =>
          cases hr with
          | @head _ s' _ hr =>
              obtain ⟨plain, made, declared⟩ := Stmt.Renames.scoped hnew s hr h hn.1
              have after : Γ.after s' = Γ.after s := by
                unfold Context.after
                rw [declared]
              refine ⟨plain, .cons made ?_⟩
              rw [after]
              exact hss
          | tail hr =>
              obtain ⟨plain, made⟩ := Stmts.Renames.scoped hnew ss hr hss hn.2
              exact ⟨plain, .cons h made⟩

theorem FunctionDecls.Renames.scoped (hnew : Keyword.ofText? σ.new = none) (ds : List (FunctionDecl Binding))
    {ds' : List (FunctionDecl Binding)} {Γ : Context} (hr : FunctionDecls.Renames σ ds ds')
    (h : ∀ d ∈ ds, d.Scoped Unlabelled (.ofMethod d) Γ) (hn : σ.new ∉ FunctionDecl.namesAll ds) :
    σ.Plain ∧ ∀ d ∈ ds', d.Scoped Unlabelled (.ofMethod d) Γ := by
  match ds with
  | [] => cases hr
  | d :: ds =>
      simp only [FunctionDecl.namesAll, List.mem_append, not_or] at hn
      have rest : ∀ e ∈ ds, e.Scoped Unlabelled (.ofMethod e) Γ := fun e he => h e (List.mem_cons_of_mem _ he)
      cases hr with
      | @head _ d' _ hr =>
          obtain ⟨plain, made, name⟩ := FunctionDecl.Renames.scoped hnew d hr (h d List.mem_cons_self) hn.1
          refine ⟨plain, fun e he => ?_⟩
          rcases List.mem_cons.1 he with rfl | he
          · have kind : FunctionContext.ofMethod e = .ofMethod d := by
              unfold FunctionContext.ofMethod FunctionDecl.isInitializer
              rw [name]
            rw [kind]
            exact made
          · exact rest e he
      | tail hr =>
          obtain ⟨plain, made⟩ := FunctionDecls.Renames.scoped hnew ds hr rest hn.2
          refine ⟨plain, fun e he => ?_⟩
          rcases List.mem_cons.1 he with rfl | he
          · exact h e List.mem_cons_self
          · exact made e he

end

end LoxScript
