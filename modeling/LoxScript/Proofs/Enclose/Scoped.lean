import LoxScript.Proofs.Enclose.Basic

/-!
# A program in a block is well scoped

Around each place of the program there is one scope more, the outermost. Inside functions and blocks that scope
stays the same; in between it grows with each declaration.
-/

namespace LoxScript

variable {P : Context → Node Binding → Prop} {T : List String}

/-! ## One scope more -/

namespace Context

/-- Surroundings inside one more scope, the outermost. -/
def within (Γ : Context) (B : Scope) : Context :=
  { Γ with scopes := Γ.scopes ++ [B] }

theorem within_mark {Γ : Context} (h : Γ.scopes ≠ []) (B : Scope) (name : String) (passed : Bool) :
    (Γ.mark name passed).within B = (Γ.within B).mark name passed := by
  obtain ⟨scopes, _, _⟩ := Γ
  cases scopes with
  | nil => exact absurd rfl h
  | cons scope outer => rfl

theorem within_markAll {Γ : Context} (h : Γ.scopes ≠ []) (B : Scope) (names : List Name) :
    (Γ.markAll names).within B = (Γ.within B).markAll names := by
  induction names generalizing Γ with
  | nil => rfl
  | cons name names ih =>
      have step := ih (mark_ne_nil h name.text true)
      rw [within_mark h] at step
      exact step

theorem length_after (Γ : Context) (s : Stmt Binding) : (Γ.after s).scopes.length = Γ.scopes.length := by
  unfold after
  cases s.declared? with
  | none => rfl
  | some n => exact Γ.length_mark n.text true

theorem within_after {Γ : Context} (h : Γ.scopes ≠ []) (B : Scope) (s : Stmt Binding) (k : Nat) :
    (Γ.after s).within B = (Γ.within B).after (s.enclose T k) := by
  unfold after
  rw [s.declared?_enclose]
  cases s.declared? with
  | none => rfl
  | some n => exact within_mark h B n.text true

theorem inClass_within (Γ : Context) (B : Scope) (kind : ClassContext) (hasSuperclass : Bool) :
    (Γ.inClass kind hasSuperclass).within B = (Γ.within B).inClass kind hasSuperclass := by
  cases hasSuperclass <;> rfl

theorem length_inClass (Γ : Context) (kind : ClassContext) (hasSuperclass : Bool) :
    (Γ.inClass kind hasSuperclass).scopes.length = Binding.classDepth hasSuperclass Γ.scopes.length := by
  cases hasSuperclass <;> rfl

theorem MayDeclare.within {Γ : Context} {n : Name} (h : Γ.MayDeclare n) (hΓ : Γ.scopes ≠ []) (B : Scope) :
    (Γ.within B).MayDeclare n := by
  refine ⟨h.identifier, fun scope hs => h.fresh scope ?_⟩
  obtain ⟨scopes, _, _⟩ := Γ
  cases scopes with
  | nil => exact absurd rfl hΓ
  | cons first outer => exact hs

theorem MayDeclareAll.within {Γ : Context} {ps : List Name} (h : Γ.MayDeclareAll ps) (hΓ : Γ.scopes ≠ [])
    (B : Scope) : (Γ.within B).MayDeclareAll ps := by
  induction ps generalizing Γ with
  | nil => trivial
  | cons p ps ih =>
      refine ⟨h.1.within hΓ B, ?_⟩
      rw [← within_mark hΓ]
      exact ih h.2 (mark_ne_nil hΓ p.text true)

end Context

/-! ## What the block declares -/

namespace Scope

/-- The block declares names of `T` only, and these are no reserved words. -/
structure Among (B : Scope) (T : List String) : Prop where
  only : ∀ x, B.contains x = true → x ∈ T
  plain : ∀ x ∈ T, Keyword.ofText? x = none

def Knows (B : Scope) (T xs : List String) : Prop :=
  ∀ x ∈ xs, x ∈ T → B.find? x = some true

variable {B : Scope} {xs ys : List String}

theorem Knows.left (h : B.Knows T (xs ++ ys)) : B.Knows T xs :=
  fun x hx => h x (List.mem_append_left ys hx)

theorem Knows.right (h : B.Knows T (xs ++ ys)) : B.Knows T ys :=
  fun x hx => h x (List.mem_append_right xs hx)

theorem Among.keyword (h : B.Among T) (kw : Keyword) : B.contains kw.text = false := by
  cases hc : B.contains kw.text with
  | false => rfl
  | true =>
      have plain := h.plain _ (h.only _ hc)
      rw [Keyword.ofText?_text] at plain
      cases plain

/-- A name outside of `T` is not found in the block. -/
theorem Among.find?_none (h : B.Among T) {x : String} (hx : x ∉ T) : B.find? x = none := by
  cases hf : B.find? x with
  | none => rfl
  | some passed =>
      refine absurd (h.only x ?_) hx
      unfold Table.contains
      rw [hf]
      rfl

end Scope

/-! ## References -/

theorem distance?_within (name : String) (scopes : List Scope) (B : Scope) :
    distance? name (scopes ++ [B]) =
      (distance? name scopes).or (if B.contains name then some scopes.length else none) := by
  induction scopes with
  | nil => simp [distance?]
  | cons scope outer ih =>
      simp only [List.cons_append, distance?, ih]
      by_cases hc : scope.contains name = true
      · simp [hc]
      · cases distance? name outer with
        | some d => simp [hc]
        | none => by_cases hB : B.contains name = true <;> simp [hc, hB]

/-- Seen from inside the block, a global name that the block declares is local. -/
theorem Binding.ofScopes_within {B : Scope} (hB : B.Among T) {Γ : Context} {name : String}
    (known : Binding.ofScopes name Γ.scopes = .global → name ∈ T → B.find? name = some true) :
    (Binding.ofScopes name Γ.scopes).enclose T Γ.scopes.length name = .ofScopes name (Γ.within B).scopes := by
  unfold Context.within Binding.ofScopes Binding.enclose
  rw [distance?_within]
  cases hd : distance? name Γ.scopes with
  | some d => simp
  | none =>
      by_cases hT : name ∈ T
      · have found := known (by unfold Binding.ofScopes; rw [hd]) hT
        have declared : B.contains name = true := by simp [Table.contains, found]
        simp [hT, declared]
      · have absent : B.contains name = false := by simp [Table.contains, hB.find?_none hT]
        simp [hT, absent]

theorem Binding.ofScopes_within_keyword {B : Scope} (hB : B.Among T) (Γ : Context) (kw : Keyword) :
    Binding.ofScopes kw.text Γ.scopes = .ofScopes kw.text (Γ.within B).scopes := by
  unfold Context.within Binding.ofScopes
  rw [distance?_within, hB.keyword]
  simp

theorem Context.Reads.within {Γ : Context} {n : Name} {ref : Binding} (h : Γ.Reads n ref) {B : Scope}
    (hB : B.Among T) (known : ref = .global → n.text ∈ T → B.find? n.text = some true) :
    (Γ.within B).Reads n (ref.enclose T Γ.scopes.length n.text) := by
  obtain ⟨passed, rfl⟩ := h
  refine ⟨?_, Binding.ofScopes_within hB known⟩
  obtain ⟨scopes, _, _⟩ := Γ
  cases scopes with
  | cons scope outer => exact passed
  | nil =>
      -- The innermost scope is the new one here, where all variables have passed their initializers.
      show B.find? n.text ≠ some false
      by_cases hT : n.text ∈ T
      · rw [known rfl hT]
        simp
      · rw [hB.find?_none hT]
        simp

/-! ## Expressions -/

mutual

theorem Expr.Scoped.enclose {B : Scope} (hB : B.Among T) (e : Expr Binding) {Γ : Context} (h : e.Scoped P Γ)
    (hx : B.Knows T e.globals) : (e.enclose T Γ.scopes.length).Scoped Unlabelled (Γ.within B) := by
  match e with
  | .literal v => exact .literal trivial
  | .grouping e =>
      cases h with
      | grouping _ h => exact .grouping trivial (Expr.Scoped.enclose hB e h hx)
  | .unary op l e =>
      cases h with
      | unary _ h => exact .unary trivial (Expr.Scoped.enclose hB e h hx)
  | .binary op l a b =>
      cases h with
      | binary _ ha hb =>
          exact .binary trivial (Expr.Scoped.enclose hB a ha hx.left) (Expr.Scoped.enclose hB b hb hx.right)
  | .logical op l a b =>
      cases h with
      | logical _ ha hb =>
          exact .logical trivial (Expr.Scoped.enclose hB a ha hx.left) (Expr.Scoped.enclose hB b hb hx.right)
  | .var n ref =>
      cases h with
      | var _ id reads =>
          exact .var trivial id (reads.within hB fun hg => hx n.text (Expr.mem_globals_var n hg))
  | .assign n ref v =>
      cases h with
      | assign _ id bound h =>
          have known : ref = .global → n.text ∈ T → B.find? n.text = some true :=
            fun hg => hx n.text (Expr.mem_globals_assign n v hg)
          subst bound
          exact .assign trivial id (Binding.ofScopes_within hB known) (Expr.Scoped.enclose hB v h hx.right)
  | .call f l es =>
      cases h with
      | call _ hf hes =>
          exact .call trivial (Expr.Scoped.enclose hB f hf hx.left) (Expr.Scoped.encloseAll hB es hes hx.right)
  | .get e n =>
      cases h with
      | get _ h => exact .get trivial (Expr.Scoped.enclose hB e h hx)
  | .set e n v =>
      cases h with
      | set _ he hv => exact .set trivial (Expr.Scoped.enclose hB e he hx.left) (Expr.Scoped.enclose hB v hv hx.right)
  | .this l ref =>
      cases h with
      | this _ hc bound => exact .this trivial hc (bound.trans (Binding.ofScopes_within_keyword hB Γ .thisWord))
  | .super l m ref =>
      cases h with
      | super _ hc bound => exact .super trivial hc (bound.trans (Binding.ofScopes_within_keyword hB Γ .superWord))

theorem Expr.Scoped.encloseAll {B : Scope} (hB : B.Among T) (es : List (Expr Binding)) {Γ : Context}
    (h : ∀ e ∈ es, e.Scoped P Γ) (hx : B.Knows T (Expr.globalsAll es)) :
    ∀ e ∈ Expr.encloseAll T Γ.scopes.length es, e.Scoped Unlabelled (Γ.within B) := by
  match es with
  | [] => simp [Expr.encloseAll]
  | e :: es =>
      have first := Expr.Scoped.enclose hB e (h e List.mem_cons_self) hx.left
      have rest := Expr.Scoped.encloseAll hB es (fun v hv => h v (List.mem_cons_of_mem _ hv)) hx.right
      intro v hv
      rcases List.mem_cons.1 hv with rfl | hv
      · exact first
      · exact rest v hv

end

theorem Expr.scoped_enclose? {B : Scope} (hB : B.Among T) {e : Option (Expr Binding)} {Γ : Context}
    (h : ∀ v ∈ e, v.Scoped P Γ) (hx : B.Knows T (Expr.globals? e)) :
    ∀ v ∈ e.map (Expr.enclose T Γ.scopes.length), v.Scoped Unlabelled (Γ.within B) := by
  cases e with
  | none => simp
  | some e =>
      intro v hv
      cases hv
      exact Expr.Scoped.enclose hB e (h e rfl) hx

theorem Stmt.superclass_enclose {B : Scope} (hB : B.Among T) {n : Name} {c : Option (Name × Binding)} {Γ : Context}
    (h : ∀ p ∈ c, p.1.text ≠ n.text ∧ p.1.IsIdentifier ∧ Γ.Reads p.1 p.2)
    (hx : B.Knows T (Stmt.superclassGlobals c)) :
    ∀ p ∈ c.map fun p => (p.1, p.2.enclose T Γ.scopes.length p.1.text),
      p.1.text ≠ n.text ∧ p.1.IsIdentifier ∧ (Γ.within B).Reads p.1 p.2 := by
  cases c with
  | none => exact nofun
  | some p =>
      intro q hq
      cases hq
      obtain ⟨hne, id, reads⟩ := h p rfl
      exact ⟨hne, id, reads.within hB fun hg => hx p.1.text (Stmt.mem_superclassGlobals p.1 hg)⟩

/-! ## Statements inside functions and blocks -/

theorem FunctionContext.ofMethod_enclose (T : List String) (k : Nat) (d : FunctionDecl Binding) :
    FunctionContext.ofMethod (d.enclose T k) = .ofMethod d := by
  cases d
  rfl

mutual

/-- Only where nothing is declared may there be no scope around the statement but the block. -/
theorem Stmt.Scoped.enclose {B : Scope} (hB : B.Among T) (s : Stmt Binding) {Γ : Context} (h : s.Scoped P Γ)
    (hΓ : Γ.scopes = [] → s.declared? = none) (hx : B.Knows T s.globals) :
    (s.enclose T Γ.scopes.length).Scoped Unlabelled (Γ.within B) := by
  match s with
  | .expression e =>
      cases h with
      | expression _ h => exact .expression trivial (h.enclose hB e hx)
  | .print e =>
      cases h with
      | print _ h => exact .print trivial (h.enclose hB e hx)
  | .var n e =>
      cases h with
      | var _ hd h =>
          have inside : Γ.scopes ≠ [] := fun hnil => nomatch hΓ hnil
          refine .var trivial (hd.within inside B) ?_
          rw [← Context.within_mark inside, ← Γ.length_mark n.text false]
          exact Expr.scoped_enclose? hB h hx
  | .block b =>
      cases h with
      | block _ h => exact .block trivial (Stmts.Scoped.enclose hB b h (List.cons_ne_nil _ _) hx)
  | .function d =>
      cases h with
      | function _ hd h =>
          have inside : Γ.scopes ≠ [] := fun hnil => nomatch hΓ hnil
          have made := FunctionDecl.Scoped.enclose hB d h hx
          rw [Context.within_mark inside, Γ.length_mark, ← d.enclose_name T (Γ.scopes.length + 1)] at made
          refine .function trivial ?_ made
          rw [d.enclose_name]
          exact hd.within inside B
  | .classDecl n c ms =>
      cases h with
      | classDecl _ hd hc hms =>
          have inside : Γ.scopes ≠ [] := fun hnil => nomatch hΓ hnil
          have methods := FunctionDecls.Scoped.enclose hB ms hms hx.right
          rw [Context.inClass_within, Context.within_mark inside, Context.length_inClass, Γ.length_mark] at methods
          have superclass := Stmt.superclass_enclose hB hc hx.left
          rw [Context.within_mark inside, Γ.length_mark] at superclass
          refine .classDecl trivial (hd.within inside B) superclass ?_
          rw [ClassContext.ofDeclaration_enclose, Option.isSome_map]
          exact methods
  | .ite c t e =>
      cases h with
      | ite _ hc ht h he h' =>
          have taken := Stmt.Scoped.enclose hB t h (fun _ => ht) hx.right.left
          have other := Stmt.Scoped.enclose? hB e he h' hx.right.right
          refine .ite trivial (hc.enclose hB c hx.left) ((t.declared?_enclose T _).trans ht) taken ?_ other
          cases e with
          | none => exact nofun
          | some e =>
              intro u hu
              cases hu
              exact (e.declared?_enclose T _).trans (he e rfl)
  | .ret l e =>
      cases h with
      | ret _ hr hv h =>
          refine .ret trivial hr (fun hsome => hv ?_) (Expr.scoped_enclose? hB h hx)
          rw [Option.isSome_map] at hsome
          exact hsome
  | .loop c b =>
      cases h with
      | loop _ hc hb h =>
          have body := Stmt.Scoped.enclose hB b h (fun _ => hb) hx.right
          exact .loop trivial (hc.enclose hB c hx.left) ((b.declared?_enclose T _).trans hb) body

theorem FunctionDecl.Scoped.enclose {B : Scope} (hB : B.Among T) (d : FunctionDecl Binding)
    {kind : FunctionContext} {Γ : Context} (h : d.Scoped P kind Γ) (hx : B.Knows T d.globals) :
    (d.enclose T (Γ.scopes.length + 1)).Scoped Unlabelled kind (Γ.within B) := by
  match d with
  | .mk n ps b =>
      cases h with
      | mk hps h =>
          have inside : (Γ.inFunction kind).scopes ≠ [] := List.cons_ne_nil _ _
          have body := Stmts.Scoped.enclose hB b h (Context.markAll_ne_nil inside ps) hx
          rw [Context.within_markAll inside, Context.length_markAll] at body
          exact .mk (hps.within inside B) body

theorem Stmts.Scoped.enclose {B : Scope} (hB : B.Among T) (ss : List (Stmt Binding)) {Γ : Context}
    (h : Stmts.Scoped P Γ ss) (hΓ : Γ.scopes ≠ []) (hx : B.Knows T (Stmt.globalsAll ss)) :
    Stmts.Scoped Unlabelled (Γ.within B) (Stmt.encloseAll T Γ.scopes.length ss) := by
  match ss with
  | [] => exact .nil
  | s :: ss =>
      cases h with
      | cons h hss =>
          have first := Stmt.Scoped.enclose hB s h (fun hnil => absurd hnil hΓ) hx.left
          have rest := Stmts.Scoped.enclose hB ss hss (Context.after_ne_nil hΓ s) hx.right
          rw [Context.within_after (T := T) hΓ B s Γ.scopes.length, Context.length_after] at rest
          exact .cons first rest

theorem Stmt.Scoped.enclose? {B : Scope} (hB : B.Among T) (s : Option (Stmt Binding)) {Γ : Context}
    (hd : ∀ u ∈ s, u.declared? = none) (h : ∀ u ∈ s, u.Scoped P Γ) (hx : B.Knows T (Stmt.globals? s)) :
    ∀ u ∈ Stmt.enclose? T Γ.scopes.length s, u.Scoped Unlabelled (Γ.within B) := by
  match s with
  | none => exact nofun
  | some s =>
      intro u hu
      cases hu
      exact Stmt.Scoped.enclose hB s (h s rfl) (fun _ => hd s rfl) hx

theorem FunctionDecls.Scoped.enclose {B : Scope} (hB : B.Among T) (ds : List (FunctionDecl Binding)) {Γ : Context}
    (h : ∀ d ∈ ds, d.Scoped P (.ofMethod d) Γ) (hx : B.Knows T (FunctionDecl.globalsAll ds)) :
    ∀ d ∈ FunctionDecl.encloseAll T (Γ.scopes.length + 1) ds, d.Scoped Unlabelled (.ofMethod d) (Γ.within B) := by
  match ds with
  | [] => exact nofun
  | d :: ds =>
      have first := FunctionDecl.Scoped.enclose hB d (h d List.mem_cons_self) hx.left
      have rest := FunctionDecls.Scoped.enclose hB ds (fun e he => h e (List.mem_cons_of_mem _ he)) hx.right
      intro e he
      rcases List.mem_cons.1 he with rfl | he
      · rw [FunctionContext.ofMethod_enclose]
        exact first
      · exact rest e he

end

/-! ## Statements of the block itself -/

namespace Scope

def Declares (B : Scope) (D : List String) : Prop :=
  ∀ x, B.find? x = if x ∈ D then some true else none

variable {B : Scope} {D xs : List String}

theorem declares_empty : Scope.Declares .empty [] := by
  intro x
  simp

theorem Declares.insert (h : B.Declares D) (x : String) : Scope.Declares (B.insert x true) (x :: D) := by
  intro y
  rw [Table.find?_insert, h y]
  by_cases same : y = x <;> simp [same]

/-- Whether its initializer has been passed or not, one more name may be declared. -/
theorem Declares.among_insert (h : B.Declares D) (hD : ∀ y ∈ D, y ∈ T) (plain : ∀ y ∈ T, Keyword.ofText? y = none)
    {x : String} (hx : x ∈ T) (passed : Bool) : Scope.Among (B.insert x passed) T := by
  refine ⟨fun y hy => ?_, plain⟩
  unfold Table.contains at hy
  rw [Table.find?_insert, h y] at hy
  by_cases same : y = x
  · exact same ▸ hx
  · by_cases declared : y ∈ D
    · exact hD y declared
    · simp [same, declared] at hy

theorem Declares.among (h : B.Declares D) (hD : ∀ y ∈ D, y ∈ T) (plain : ∀ y ∈ T, Keyword.ofText? y = none) :
    B.Among T := by
  refine ⟨fun y hy => ?_, plain⟩
  unfold Table.contains at hy
  rw [h y] at hy
  by_cases declared : y ∈ D
  · exact hD y declared
  · simp [declared] at hy

theorem Declares.knows (h : B.Declares D) (hx : ∀ x ∈ xs, x ∈ T → x ∈ D) : B.Knows T xs := by
  intro x hmem hT
  rw [h x, if_pos (hx x hmem hT)]

theorem Declares.knows_unpassed (h : B.Declares D) (hx : ∀ x ∈ xs, x ∈ T → x ∈ D) {y : String} (hy : y ∉ D) :
    Scope.Knows (B.insert y false) T xs := by
  intro x hmem hT
  have declared := hx x hmem hT
  have other : x ≠ y := by
    rintro rfl
    exact hy declared
  rw [Table.find?_insert, if_neg other, h x, if_pos declared]

theorem Declares.mayDeclare (h : B.Declares D) {n : Name} (id : n.IsIdentifier) (hn : n.text ∉ D) :
    (Context.top.within B).MayDeclare n := by
  refine ⟨id, fun scope hs => ?_⟩
  cases hs
  unfold Table.contains
  rw [h n.text, if_neg hn]
  rfl

end Scope

theorem Stmt.Scoped.enclose_top (plain : ∀ x ∈ T, Keyword.ofText? x = none) {s : Stmt Binding} {B : Scope}
    {D : List String} (hB : B.Declares D) (hD : ∀ x ∈ D, x ∈ T) (h : s.Scoped P .top)
    (order : ∀ x ∈ s.globals, x ∈ T → x ∈ D ∨ s.selfName? = some x)
    (fresh : ∀ n, s.declared? = some n → n.text ∈ T ∧ n.text ∉ D) :
    (s.enclose T 0).Scoped Unlabelled (Context.top.within B) := by
  have other (hs : s.declared? = none) : (s.enclose T 0).Scoped Unlabelled (Context.top.within B) := by
    refine Stmt.Scoped.enclose (hB.among hD plain) s h (fun _ => hs) (hB.knows fun x hx hT => ?_)
    rcases order x hx hT with known | self
    · exact known
    · rw [Stmt.selfName?_of_declared hs] at self
      cases self
  cases h with
  | @var _ n e _ hd h =>
      obtain ⟨hT, hn⟩ := fresh n rfl
      have known : ∀ x ∈ Expr.globals? e, x ∈ T → x ∈ D := by
        intro x hx hT
        rcases order x hx hT with known | self
        · exact known
        · cases self
      have among := hB.among_insert hD plain hT false
      exact .var trivial (hB.mayDeclare hd.identifier hn) (Expr.scoped_enclose? among h (hB.knows_unpassed known hn))
  | @function _ d _ hd h =>
      obtain ⟨hT, hn⟩ := fresh d.name rfl
      have known : ∀ x ∈ d.globals, x ∈ T → x ∈ d.name.text :: D := by
        intro x hx hT
        rcases order x hx hT with known | self
        · exact List.mem_cons_of_mem _ known
        · cases self
          exact List.mem_cons_self
      have among := hB.among_insert hD plain hT true
      have made := FunctionDecl.Scoped.enclose among d h ((hB.insert d.name.text).knows known)
      have name := d.enclose_name T 1
      refine .function trivial ?_ ?_
      · rw [name]
        exact hB.mayDeclare hd.identifier hn
      · rw [name]
        exact made
  | @classDecl _ n c ms _ hd hc hms =>
      obtain ⟨hT, hn⟩ := fresh n rfl
      have known : ∀ x ∈ (Stmt.classDecl n c ms).globals, x ∈ T → x ∈ n.text :: D := by
        intro x hx hT
        rcases order x hx hT with known | self
        · exact List.mem_cons_of_mem _ known
        · cases self
          exact List.mem_cons_self
      have among := hB.among_insert hD plain hT true
      have knows : Scope.Knows (B.insert n.text true) T (Stmt.classDecl n c ms).globals :=
        (hB.insert n.text).knows known
      have methods := FunctionDecls.Scoped.enclose among ms hms knows.right
      rw [Context.inClass_within, Context.length_inClass] at methods
      refine .classDecl trivial (hB.mayDeclare hd.identifier hn) (Stmt.superclass_enclose among hc knows.left) ?_
      rw [ClassContext.ofDeclaration_enclose, Option.isSome_map]
      exact methods
  | expression | print | block | ite | ret | loop => exact other rfl

theorem Stmts.Scoped.enclose_top (plain : ∀ x ∈ T, Keyword.ofText? x = none) {ss : List (Stmt Binding)} {B : Scope}
    {D : List String} (hB : B.Declares D) (hD : ∀ x ∈ D, x ∈ T) (h : Stmts.Scoped P .top ss)
    (order : Stmt.InOrder T D ss) (distinct : (Stmt.declarations ss).Nodup)
    (fresh : ∀ x ∈ Stmt.declarations ss, x ∈ T ∧ x ∉ D) :
    Stmts.Scoped Unlabelled (Context.top.within B) (Stmt.encloseAll T 0 ss) := by
  induction ss generalizing B D with
  | nil => exact .nil
  | cons s ss ih =>
      cases h with
      | cons h hss =>
          have first := h.enclose_top plain hB hD order.1 fun n hn => fresh n.text (by simp [Stmt.declarations, hn])
          refine .cons first ?_
          have rest := order.2
          unfold Context.after at hss ⊢
          unfold Stmt.declarations at distinct fresh
          rw [s.declared?_enclose]
          cases hd : s.declared? with
          | none =>
              rw [hd] at hss rest
              simp only [List.filterMap_cons, hd, Option.map_none] at distinct fresh
              exact ih hB hD hss rest distinct fresh
          | some n =>
              rw [hd] at hss rest
              simp only [List.filterMap_cons, hd, Option.map_some, List.nodup_cons] at distinct
              simp only [List.filterMap_cons, hd, Option.map_some, List.mem_cons, forall_eq_or_imp] at fresh
              refine ih (hB.insert n.text) ?_ hss rest distinct.2 fun x hx => ⟨(fresh.2 x hx).1, ?_⟩
              · simpa [fresh.1.1] using hD
              · intro hmem
                rcases List.mem_cons.1 hmem with rfl | hmem
                · exact distinct.1 hx
                · exact (fresh.2 x hx).2 hmem

/-- A program whose references to its own variables are in order is well scoped in a block, too. -/
theorem Stmts.Scoped.enclose_block {ss : List (Stmt Binding)} (h : Stmts.Scoped P .top ss)
    (distinct : (Stmt.declarations ss).Nodup) (order : Stmt.InOrder (Stmt.declarations ss) [] ss) :
    Stmts.Scoped Unlabelled .top [.block (Stmt.encloseAll (Stmt.declarations ss) 0 ss)] := by
  have plain : ∀ x ∈ Stmt.declarations ss, Keyword.ofText? x = none := by
    intro x hx
    obtain ⟨s, hs, hd⟩ := List.mem_filterMap.1 hx
    obtain ⟨n, hn, rfl⟩ := Option.map_eq_some_iff.1 hd
    exact h.identifier s hs n hn
  have body := h.enclose_top plain Scope.declares_empty (by simp) order distinct (by simp)
  exact .cons (.block trivial body) .nil

end LoxScript
