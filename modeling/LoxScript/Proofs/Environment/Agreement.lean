import LoxScript.Proofs.Environment.Fits
import LoxScript.Proofs.Lockstep.Evaluate

/-!
# Environments and scopes agree

A well-scoped program runs in lockstep with itself, in environments that fit its scopes. No run of it comes to a
fault, and whatever `P` says of the pieces of the program is known wherever they run.
-/

namespace LoxScript

/-- `this` is only ever bound to an instance and `super` to a class. -/
structure Frames.Own (F : Frames) : Prop where
  this : ∀ id slot, F.find? id Keyword.thisWord.text = some slot → ∃ i, slot = .value (.instanceRef i)
  super : ∀ id slot, F.find? id Keyword.superWord.text = some slot → ∃ k, slot = .value (.classRef k)

namespace Frames.Own

variable {F : Frames}

theorem define (h : F.Own) {name : Name} (hn : name.IsIdentifier) (id : FrameId) (slot : Slot) :
    (F.define id name.text slot).Own := by
  refine ⟨fun other found hf => ?_, fun other found hf => ?_⟩
  · rw [Frames.find?_define, if_neg fun hc => hn.ne_keyword .thisWord hc.2.1.symm] at hf
    exact h.this other found hf
  · rw [Frames.find?_define, if_neg fun hc => hn.ne_keyword .superWord hc.2.1.symm] at hf
    exact h.super other found hf

theorem push (h : F.Own) {frame : Frame}
    (hthis : ∀ slot, frame.find? Keyword.thisWord.text = some slot → ∃ i, slot = .value (.instanceRef i))
    (hsuper : ∀ slot, frame.find? Keyword.superWord.text = some slot → ∃ k, slot = .value (.classRef k)) :
    Frames.Own (F.push frame) := by
  refine ⟨fun id slot hf => ?_, fun id slot hf => ?_⟩
  · rw [Frames.find?_push] at hf
    split at hf
    · exact hthis slot hf
    · exact h.this id slot hf
  · rw [Frames.find?_push] at hf
    split at hf
    · exact hsuper slot hf
    · exact h.super id slot hf

end Frames.Own

namespace Context

/-- References whose variable is there when they are read: a global, or a name that a scope is known to bind. -/
def Finds (Γ : Context) (name : String) (ref : Binding) : Prop :=
  ref = .global ∨ ∃ d scope, ref = .scoped d ∧ Γ.scopes[d]? = some scope ∧ scope.find? name = some true

theorem finds_of_distance {Γ : Context} {name : String} {d : Nat} {scope : Scope}
    (hd : Γ.scopes[d]? = some scope) (hc : scope.contains name = true)
    (hp : ∀ passed, scope.find? name = some passed → passed = true) : Γ.Finds name (.scoped d) := by
  unfold Table.contains at hc
  obtain ⟨passed, hf⟩ := Option.isSome_iff_exists.1 hc
  have : passed = true := hp passed hf
  subst this
  exact .inr ⟨d, scope, rfl, hd, hf⟩

/-- What may be read is there. -/
theorem Reads.finds {Γ : Context} {name : Name} {ref : Binding} (h : Γ.Reads name ref)
    (hp : Passed Γ.scopes.tail) : Γ.Finds name.text ref := by
  have bound := h.bound
  unfold Binding.ofScopes at bound
  cases hd : distance? name.text Γ.scopes with
  | none =>
      rw [hd] at bound
      exact .inl bound
  | some d =>
      rw [hd] at bound
      subst bound
      obtain ⟨scope, hs, hc⟩ := distance?_eq_some hd
      refine finds_of_distance hs hc fun passed hf => ?_
      cases hscopes : Γ.scopes with
      | nil => simp [hscopes] at hs
      | cons first outer =>
          rw [hscopes] at hs
          cases d with
          | zero =>
              cases hs
              have passed' := h.passed
              rw [hscopes] at passed'
              simp only [List.head?_cons, Option.bind_some] at passed'
              cases passed with
              | true => rfl
              | false => exact absurd hf passed'
          | succ d =>
              refine hp scope ?_ name.text passed hf
              rw [hscopes]
              exact List.mem_of_getElem? hs

/-- The scope of `this`, as the innermost class sees it. -/
theorem Shaped.this {Γ : Context} (h : Γ.Shaped) (hc : Γ.classContext ≠ .outside) :
    ∃ d, Binding.ofScopes Keyword.thisWord.text Γ.scopes = .scoped d ∧ Γ.scopes[d]? = some thisScope := by
  obtain ⟨inner, outer, hs, _, hord, _⟩ := h hc
  refine ⟨inner.length, ?_, by simp [hs]⟩
  unfold Binding.ofScopes
  rw [hs, distance?_append (fun scope hscope => (hord scope hscope).1) rfl]

/-- The scope of `super` lies just outside that of `this`. -/
theorem Shaped.super {Γ : Context} (h : Γ.Shaped) (hc : Γ.classContext = .derived) :
    ∃ d, Binding.ofScopes Keyword.superWord.text Γ.scopes = .scoped (d + 1) ∧
      Γ.scopes[d]? = some thisScope ∧ Γ.scopes[d + 1]? = some superScope := by
  obtain ⟨inner, outer, hs, _, hord, hsuper⟩ := h (by rw [hc]; simp)
  obtain ⟨rest, houter⟩ : ∃ rest, outer = superScope :: rest := by
    cases outer with
    | nil => simp at hsuper; exact absurd hc hsuper
    | cons scope rest =>
        have first := hsuper hc
        cases first
        exact ⟨rest, rfl⟩
  subst houter
  refine ⟨inner.length, ?_, by simp [hs], by simp [hs]⟩
  have split : inner ++ thisScope :: superScope :: rest = (inner ++ [thisScope]) ++ superScope :: rest := by simp
  unfold Binding.ofScopes
  rw [hs, split, distance?_append _ rfl]
  · simp
  · intro scope hscope
    rcases List.mem_append.1 hscope with hscope | hscope
    · exact (hord scope hscope).2
    · rw [List.mem_singleton.1 hscope]
      rfl

end Context

def agreement (P : Context → Node Binding → Prop) : Lockstep where
  World := Frames
  Site := Context
  le := Frames.Extends
  frames w F F' := F = w ∧ F' = w ∧ w.Own ∧ 0 < w.size
  chain w Γ c c' := c = c' ∧ Fits w Γ.scopes c
  expr Γ e e' := e = e' ∧ e.Scoped P Γ ∧ Γ.Ready
  stmt Γ s s' Γ₁ := s = s' ∧ s.Scoped P Γ ∧ Γ.Settled ∧ Γ₁ = Γ.after s
  line _ l l' := l = l'
  read Γ p p' := p = p' ∧ Γ.Finds p.1.text p.2
  write Γ p p' := p = p' ∧ p.1.IsIdentifier ∧ ∀ d, p.2 = .scoped d → d < Γ.scopes.length
  superRef Γ r r' := r = r' ∧ ∃ d, r = .scoped (d + 1) ∧ Γ.scopes[d]? = some thisScope ∧
    Γ.scopes[d + 1]? = some superScope
  declare Γ n n' Γ₁ := n = n' ∧ n.IsIdentifier ∧ Γ₁ = Γ.mark n.text true
  enter Γ Γ₁ := Γ₁ = Γ.push .empty
  enterFunction Γ ps ps' Γ₁ := ps = ps' ∧ (∀ p ∈ ps, p.IsIdentifier) ∧
    ∃ k, k ≠ .outside ∧ Γ₁ = (Γ.inFunction k).markAll ps
  superSite Γ := Γ.push superScope
  thisSite b Γ := Context.push { Γ with classContext := if b then .derived else .base } thisScope
  initial Γ := Γ.scopes[0]? = some thisScope
  returns Γ := Γ.function ≠ .outside
  failure e e' := e = e'
  fault := False

namespace agreement

variable {P : Context → Node Binding → Prop}

theorem this_bound {F : Frames} (own : F.Own) {scopes : List Scope} {c : Chain} (hf : Fits F scopes c) {d : Nat}
    (hd : scopes[d]? = some thisScope) :
    ∃ i, F.own? c d Keyword.thisWord.text = some (.instanceRef i) := by
  obtain ⟨id, hid, _, hbound⟩ := hf.get hd
  obtain ⟨slot, hslot⟩ := Option.isSome_iff_exists.1 (hbound Keyword.thisWord.text rfl)
  obtain ⟨i, rfl⟩ := own.this id slot hslot
  exact ⟨i, Frames.own?_eq_some.2 (Frames.slotAt_of_find? hid hslot)⟩

theorem super_bound {F : Frames} (own : F.Own) {scopes : List Scope} {c : Chain} (hf : Fits F scopes c) {d : Nat}
    (hd : scopes[d]? = some superScope) :
    ∃ k, F.own? c d Keyword.superWord.text = some (.classRef k) := by
  obtain ⟨id, hid, _, hbound⟩ := hf.get hd
  obtain ⟨slot, hslot⟩ := Option.isSome_iff_exists.1 (hbound Keyword.superWord.text rfl)
  obtain ⟨k, rfl⟩ := own.super id slot hslot
  exact ⟨k, Frames.own?_eq_some.2 (Frames.slotAt_of_find? hid hslot)⟩

theorem read_cases {name : Name} (slot : Slot) :
    (∃ v, slot.read name = .ok v) ∨ ∃ e err, slot.read name = .error e ∧ e.stop = .error err := by
  cases slot with
  | uninitialized => exact .inr ⟨_, _, rfl, rfl⟩
  | value v => exact .inl ⟨v, rfl⟩

/-- Reading what may be read gives a value or a runtime error. -/
theorem lookUp_cases {F : Frames} {Γ : Context} {c : Chain} {n : Name} {ref : Binding}
    (hf : Fits F Γ.scopes c) (h : Γ.Finds n.text ref) :
    (∃ v, F.lookUp c n ref = .ok v) ∨ ∃ e err, F.lookUp c n ref = .error e ∧ e.stop = .error err := by
  rcases h with rfl | ⟨d, scope, rfl, hd, hbound⟩
  · unfold Frames.lookUp Frames.get Frames.holder
    cases F.holder? n.text Heap.globalChain with
    | none => exact .inr ⟨_, _, rfl, rfl⟩
    | some id =>
        simp only [bind, Except.bind]
        cases F.find? id n.text with
        | none => exact .inr ⟨_, _, rfl, rfl⟩
        | some slot => exact read_cases slot
  · obtain ⟨id, hid, _, hin⟩ := hf.get hd
    obtain ⟨slot, hslot⟩ := Option.isSome_iff_exists.1 (hin n.text hbound)
    unfold Frames.lookUp Frames.getAt
    have hid' : (c)[(d : Int).toNat]? = some id := hid
    simp only [Frames.slotAt_of_find? hid' hslot, bind, Except.bind]
    exact read_cases slot

theorem target_cases {F : Frames} {Γ : Context} {c : Chain} {n : Name} {ref : Binding}
    (hf : Fits F Γ.scopes c) (h : ∀ d, ref = .scoped d → d < Γ.scopes.length) :
    (∃ id, F.target c n ref = .ok id) ∨ ∃ e err, F.target c n ref = .error e ∧ e.stop = .error err := by
  cases ref with
  | global =>
      unfold Frames.target Frames.holder
      cases F.holder? n.text Heap.globalChain with
      | none => exact .inr ⟨_, _, rfl, rfl⟩
      | some id => exact .inl ⟨id, rfl⟩
  | «scoped» d =>
      obtain ⟨scope, hd⟩ : ∃ scope, Γ.scopes[d]? = some scope := ⟨_, List.getElem?_eq_getElem (h d rfl)⟩
      obtain ⟨id, hid, _, _⟩ := hf.get hd
      refine .inl ⟨id, ?_⟩
      simp only [Frames.target, Frames.ancestor, Int.toNat_natCast, hid]

/-- The names that a scope of parameters knows are those of the parameters. -/
theorem mem_of_find?_markAll (Γ : Context) (scope : Scope) {ps : List Name} {name : String} {passed : Bool} :
    ∃ scope', (Context.markAll (Γ.push scope) ps).scopes = scope' :: Γ.scopes ∧
      (scope'.find? name = some passed → scope.find? name = some passed ∨ name ∈ ps.map Name.text) := by
  induction ps generalizing scope with
  | nil => exact ⟨scope, rfl, .inl⟩
  | cons p ps ih =>
      obtain ⟨scope', hs, hname⟩ := ih (scope.insert p.text true)
      refine ⟨scope', hs, fun hf => ?_⟩
      rcases hname hf with hf | hmem
      · rw [Table.find?_insert] at hf
        split at hf
        · next same =>
            subst same
            exact .inr (by simp)
        · exact .inl hf
      · exact .inr (List.mem_cons_of_mem _ hmem)

/-- The frame of the arguments of a call fits the scope of the parameters. -/
theorem fits_parameters {F : Frames} {Γ : Context} {c : Chain} (hF : 0 < F.size) (hf : Fits F Γ.scopes c)
    (k : FunctionContext) {ps : List Name} {vs : List Value} (hlen : vs.length = ps.length) :
    Fits (F.push (.ofList ((ps.map Name.text).zip (vs.map Slot.value)))) ((Γ.inFunction k).markAll ps).scopes
      (F.size :: c) := by
  have shape : ∀ name, ∃ scope', ((Γ.inFunction k).markAll ps).scopes = scope' :: Γ.scopes ∧
      (scope'.find? name = some true → Table.find? (Table.empty : Scope) name = some true ∨ name ∈ ps.map Name.text) :=
    fun name => mem_of_find?_markAll { Γ with function := k } .empty
  obtain ⟨scope', hs, _⟩ := shape ""
  rw [hs]
  refine hf.push hF fun name hn => ?_
  obtain ⟨other, hs', hname⟩ := shape name
  have same : other = scope' := by
    rw [hs] at hs'
    exact (List.cons.inj hs').1.symm
  subst same
  rw [Table.isSome_find?_ofList, List.map_fst_zip (by simp [hlen])]
  rcases hname hn with hempty | hmem
  · simp at hempty
  · exact hmem

/-! ## The pieces of well-scoped code -/

theorem relOption_self {α : Type} {R : α → α → Prop} {a : Option α} (h : ∀ x ∈ a, R x x) : Option.Rel R a a := by
  cases a with
  | none => exact .none
  | some x => exact .some (h x rfl)

theorem expr_parts {Γ : Context} {e e' : Expr Binding} (h : (agreement P).expr Γ e e') :
    (agreement P).ExprMatch Γ e e' := by
  obtain ⟨rfl, hs, ready⟩ := h
  have part : ∀ {e : Expr Binding}, e.Scoped P Γ → (agreement P).expr Γ e e :=
    fun h => ⟨rfl, h, ready⟩
  cases hs with
  | literal => exact .literal
  | grouping _ h => exact .grouping (part h)
  | unary _ h => exact .unary rfl (part h)
  | binary _ ha hb => exact .binary rfl (part ha) (part hb)
  | logical _ ha hb => exact .logical (part ha) (part hb)
  | var _ _ h => exact .var ⟨rfl, h.finds ready.passed⟩
  | assign _ hn href hv =>
      refine .assign ⟨rfl, hn, fun d hd => ?_⟩ (part hv)
      dsimp only at hd
      rw [href] at hd
      unfold Binding.ofScopes at hd
      cases hdist : distance? _ Γ.scopes with
      | none =>
          rw [hdist] at hd
          cases hd
      | some e =>
          rw [hdist] at hd
          cases hd
          exact distance?_lt hdist
  | call _ hf hes => exact .call rfl (part hf) (List.forall₂_same.2 fun e he => part (hes e he))
  | get _ h => exact .get ⟨rfl, rfl⟩ (part h)
  | set _ he hv => exact .set ⟨rfl, rfl⟩ (part he) (part hv)
  | this _ hc href =>
      obtain ⟨d, hd, hscope⟩ := ready.shaped.this hc
      refine .this ⟨rfl, ?_⟩
      rw [href, hd]
      exact .inr ⟨d, thisScope, rfl, hscope, rfl⟩
  | super _ hc href =>
      obtain ⟨d, hd, hthis, hsuper⟩ := ready.shaped.super hc
      exact .super ⟨rfl, rfl⟩ ⟨rfl, d, href.trans hd, hthis, hsuper⟩

theorem settled_after {Γ : Context} {s : Stmt Binding} (h : s.Scoped P Γ) (settled : Γ.Settled) :
    (Γ.after s).Settled := by
  cases h with
  | var _ hn _ => exact settled.mark hn.identifier
  | function _ hn _ => exact settled.mark hn.identifier
  | classDecl _ hn _ _ => exact settled.mark hn.identifier
  | expression | print | block | ite | ret | loop => exact settled

theorem stmts {Γ : Context} {ss : List (Stmt Binding)} (h : Stmts.Scoped P Γ ss) (settled : Γ.Settled) :
    (agreement P).Stmts Γ ss ss := by
  induction ss generalizing Γ with
  | nil => exact .nil
  | cons s ss ih =>
      cases h with
      | cons hs hss => exact .cons ⟨rfl, hs, settled, rfl⟩ (ih hss (settled_after hs settled))

theorem function {Γ : Context} {k : FunctionContext} (hk : k ≠ .outside) {d : FunctionDecl Binding}
    (h : d.Scoped P k Γ) (settled : (Γ.inFunction k).Settled) : (agreement P).Function Γ d d := by
  cases h with
  | mk hps hb =>
      have ids := hps.identifier
      refine ⟨rfl, _, ⟨rfl, ids, k, hk, rfl⟩, ?_⟩
      exact stmts hb (settled.markAll ids)

theorem method_settled {Γ : Context} (settled : Γ.Settled) (kind : ClassContext) (b : Bool) (k : FunctionContext)
    (hkind : kind = .derived → b = true) : ((Γ.inClass kind b).inFunction k).Settled := by
  have passed : ∀ key scopes, Context.Passed scopes → Context.Passed (Table.singleton key true :: scopes) := by
    intro key scopes h scope hs name p hp
    rcases List.mem_cons.1 hs with rfl | hs
    · rw [Table.find?_singleton] at hp
      split at hp
      · cases hp
        rfl
      · cases hp
    · exact h scope hs name p hp
  have ordinary : ∀ scope ∈ [(.empty : Scope)], Context.IsOrdinary scope := by
    intro scope hscope
    rw [List.mem_singleton.1 hscope]
    exact Context.isOrdinary_empty
  cases b with
  | false =>
      refine ⟨(passed _ _ settled.passed).push, fun _ => ⟨[.empty], Γ.scopes, rfl, by simp, ordinary, fun h => ?_⟩⟩
      exact absurd (hkind h) (by simp)
  | true =>
      refine ⟨(passed _ _ (passed _ _ settled.passed)).push, fun _ => ?_⟩
      exact ⟨[.empty], superScope :: Γ.scopes, rfl, by simp, ordinary, fun _ => rfl⟩

/-- The superclass of a class is found where the name of the class is not bound yet. -/
theorem finds_unmark {Γ : Context} {name other : String} {passed : Bool} {ref : Binding} (hne : other ≠ name)
    (h : (Γ.mark name passed).Finds other ref) : Γ.Finds other ref := by
  rcases h with rfl | ⟨d, scope, rfl, hd, hf⟩
  · exact .inl rfl
  · obtain ⟨scopes, _, _⟩ := Γ
    cases scopes with
    | nil => exact .inr ⟨d, scope, rfl, hd, hf⟩
    | cons first outer =>
        cases d with
        | zero =>
            cases hd
            rw [Table.find?_insert_of_ne _ _ hne] at hf
            exact .inr ⟨0, first, rfl, rfl, hf⟩
        | succ d => exact .inr ⟨d + 1, scope, rfl, hd, hf⟩

theorem stmt_parts {Γ Γ₁ : Context} {s s' : Stmt Binding} (h : (agreement P).stmt Γ s s' Γ₁) :
    (agreement P).StmtMatch Γ s s' Γ₁ := by
  obtain ⟨rfl, hs, settled, rfl⟩ := h
  have expr : ∀ {e : Expr Binding}, e.Scoped P Γ → (agreement P).expr Γ e e :=
    fun h => ⟨rfl, h, settled.ready⟩
  have branch : ∀ {s : Stmt Binding}, s.Scoped P Γ → s.declared? = none → (agreement P).stmt Γ s s Γ :=
    fun h hd => ⟨rfl, h, settled, (Context.after_of_declared Γ hd).symm⟩
  cases hs with
  | expression _ h => exact .expression (expr h)
  | print _ h => exact .print (expr h)
  | @var _ n e _ hn h =>
      have ready := settled.initializer hn.identifier
      have weaker : (agreement P).Weaker Γ (Γ.mark n.text false) :=
        fun w c c' hc => ⟨hc.1, hc.2.unpassed n.text⟩
      exact .var weaker (relOption_self fun e he => ⟨rfl, h e he, ready⟩) ⟨rfl, hn.identifier, rfl⟩
  | block _ h => exact .block rfl (stmts h settled.push)
  | function _ hn h =>
      exact .function ⟨rfl, hn.identifier, rfl⟩ (function (by simp) h ((settled.mark hn.identifier).inFunction _))
  | @classDecl _ n c ms _ hn hc hms =>
      have marked := settled.mark hn.identifier
      refine .classDecl rfl ?_ ⟨rfl, hn.identifier, rfl⟩ ?_
      · cases c with
        | none => exact .none
        | some p =>
            obtain ⟨hne, _, reads⟩ := hc p rfl
            exact .some ⟨rfl, finds_unmark hne (reads.finds marked.ready.passed)⟩
      · refine List.forall₂_same.2 fun d hd => ?_
        have kind : ClassContext.ofDeclaration n c = if c.isSome then .derived else .base := by
          cases c with
          | none => rfl
          | some p => simp [ClassContext.ofDeclaration, (hc p rfl).1]
        have site : (Γ.mark n.text true).inClass (.ofDeclaration n c) c.isSome =
            (agreement P).thisSite c.isSome
              ((agreement P).methodsSite c.isSome (Γ.mark n.text true)) := by
          rw [kind]
          cases c <;> rfl
        have method : FunctionContext.ofMethod d ≠ .outside := by
          unfold FunctionContext.ofMethod
          split <;> simp
        have inside := method_settled marked (.ofDeclaration n c) c.isSome (.ofMethod d) fun h => by
          rw [kind] at h
          cases c with
          | none => cases h
          | some _ => rfl
        have made := function method (hms d hd) inside
        rw [site] at made
        exact made
  | ite _ hc ht h he h' =>
      exact .ite (expr hc) (branch h ht) (relOption_self fun s hs => branch (h' s hs) (he s hs))
  | ret _ hr _ h =>
      exact .ret hr (relOption_self fun e he => expr (h e he))
  | loop _ hc hb h => exact .loop (expr hc) (branch h hb)

/-! ## The laws -/

theorem sameAccess_of_cases {α : Type} {R : α → α → Prop} {x : Except AccessError α} (hR : ∀ a, R a a)
    (h : (∃ a, x = .ok a) ∨ ∃ e err, x = .error e ∧ e.stop = .error err) :
    (agreement P).SameAccess R x x := by
  rcases h with ⟨a, rfl⟩ | ⟨e, err, rfl, he⟩
  · exact .ok (hR a)
  · refine .error ?_
    rw [he]
    exact .error rfl

section Laws

variable {F : Frames} {Γ : Context} {c : Chain} {n : Name}

/-- A variable is written or declared, and the frames still correspond. -/
theorem frames_define (own : F.Own) (hF : 0 < F.size) (hn : n.IsIdentifier) (id : FrameId) (slot : Slot) :
    (agreement P).frames (F.define id n.text slot) (F.define id n.text slot) (F.define id n.text slot) := by
  refine ⟨rfl, rfl, own.define hn id slot, ?_⟩
  rw [Frames.size_define]
  exact hF

/-- A scope is opened, and frames and environments still correspond. -/
theorem frames_push {frame : Frame} (own : Frames.Own (F.push frame))
    (fits : Fits (F.push frame) Γ.scopes (F.size :: c)) :
    ∃ w, F.Extends w ∧ (agreement P).frames w (F.push frame) (F.push frame) ∧
      (agreement P).chain w Γ (F.size :: c) (F.size :: c) := by
  have some_frame : 0 < (F.push frame).size := by simp
  exact ⟨_, .push F frame, ⟨rfl, rfl, own, some_frame⟩, rfl, fits⟩

theorem target_self (own : F.Own) (hF : 0 < F.size) (hf : Fits F Γ.scopes c) (hn : n.IsIdentifier) {ref : Binding}
    (hd : ∀ d, ref = .scoped d → d < Γ.scopes.length) :
    (agreement P).SameAccess
      (fun id id' => ∀ v, ∃ w, F.Extends w ∧
        (agreement P).frames w (F.define id n.text (.value v)) (F.define id' n.text (.value v)))
      (F.target c n ref) (F.target c n ref) :=
  sameAccess_of_cases (fun id v => ⟨_, .define F id n.text _, frames_define own hF hn id (.value v)⟩)
    (target_cases hf hd)

theorem declare_self {id : FrameId} (own : F.Own) (hF : 0 < F.size) (hf : Fits F Γ.scopes (id :: c))
    (hn : n.IsIdentifier) (slot : Slot) :
    ∃ w, F.Extends w ∧ (agreement P).frames w (F.define id n.text slot) (F.define id n.text slot) ∧
      (agreement P).chain w (Γ.mark n.text true) (id :: c) (id :: c) :=
  ⟨_, .define F id n.text slot, frames_define own hF hn id slot, rfl, hf.mark n.text slot⟩

/-- Parameters are identifiers, so a frame of arguments binds none of the variables of the machine itself. -/
theorem find?_arguments {ps : List Name} (ids : ∀ p ∈ ps, p.IsIdentifier) (vs : List Value) (k : Keyword) :
    (Table.ofList ((ps.map Name.text).zip (vs.map Slot.value))).find? k.text = none := by
  cases h : (Table.ofList ((ps.map Name.text).zip (vs.map Slot.value))).find? k.text with
  | none => rfl
  | some slot =>
      obtain ⟨p, hp, same⟩ := List.mem_map.1 (List.of_mem_zip (Table.mem_of_find?_ofList h)).1
      exact absurd same ((ids p hp).ne_keyword k)

/-- The frame of a variable that the machine itself binds fits its scope. -/
theorem fits_singleton (hF : 0 < F.size) (hf : Fits F Γ.scopes c) (name : String) (v : Value) :
    Fits (F.push (.singleton name (.value v))) (.singleton name true :: Γ.scopes) (F.size :: c) := by
  refine hf.push hF fun other known => ?_
  rw [Table.find?_singleton] at known ⊢
  split at known
  · next same =>
      rw [if_pos same]
      rfl
  · cases known

theorem enter_self (own : F.Own) (hF : 0 < F.size) (hf : Fits F Γ.scopes c) :
    ∃ w, F.Extends w ∧ (agreement P).frames w (F.push .empty) (F.push .empty) ∧
      (agreement P).chain w (Γ.push .empty) (F.size :: c) (F.size :: c) := by
  refine frames_push (own.push (by simp) (by simp)) ?_
  exact hf.push hF fun name known => by simp at known

theorem enterFunction_self (own : F.Own) (hF : 0 < F.size) (hf : Fits F Γ.scopes c) {ps : List Name}
    (ids : ∀ p ∈ ps, p.IsIdentifier) (k : FunctionContext) {vs : List Value} (length : vs.length = ps.length) :
    ∃ w, F.Extends w ∧
      (agreement P).frames w (F.push (.ofList ((ps.map Name.text).zip (vs.map Slot.value))))
        (F.push (.ofList ((ps.map Name.text).zip (vs.map Slot.value)))) ∧
      (agreement P).chain w ((Γ.inFunction k).markAll ps) (F.size :: c) (F.size :: c) := by
  refine frames_push (own.push ?this ?super) (fits_parameters hF hf k length)
  case this =>
    intro slot found
    rw [find?_arguments ids vs .thisWord] at found
    cases found
  case super =>
    intro slot found
    rw [find?_arguments ids vs .superWord] at found
    cases found

theorem enterSuper_self (own : F.Own) (hF : 0 < F.size) (hf : Fits F Γ.scopes c) (id : ClassId) :
    ∃ w, F.Extends w ∧
      (agreement P).frames w (F.push (.singleton Keyword.superWord.text (.value (.classRef id))))
        (F.push (.singleton Keyword.superWord.text (.value (.classRef id)))) ∧
      (agreement P).chain w (Γ.push superScope) (F.size :: c) (F.size :: c) := by
  refine frames_push (own.push ?this ?super) (fits_singleton hF hf _ _)
  case this =>
    intro slot found
    cases found
  case super =>
    intro slot found
    cases found
    exact ⟨id, rfl⟩

theorem enterThis_self (own : F.Own) (hF : 0 < F.size) (hf : Fits F Γ.scopes c) (b : Bool) (id : InstanceId) :
    ∃ w, F.Extends w ∧
      (agreement P).frames w (F.push (.singleton Keyword.thisWord.text (.value (.instanceRef id))))
        (F.push (.singleton Keyword.thisWord.text (.value (.instanceRef id)))) ∧
      (agreement P).chain w ((agreement P).thisSite b Γ) (F.size :: c) (F.size :: c) := by
  refine frames_push (own.push ?this ?super) (fits_singleton hF hf _ _)
  case this =>
    intro slot found
    cases found
    exact ⟨id, rfl⟩
  case super =>
    intro slot found
    cases found

/-- Both variables that a use of `super` reads are there, that of `this` one frame nearer. -/
theorem ownSuper_self (own : F.Own) (hf : Fits F Γ.scopes c) {d : Nat} (this : Γ.scopes[d]? = some thisScope)
    (super : Γ.scopes[d + 1]? = some superScope) :
    (agreement P).SameOwn Value.IsClass (F.own? c ((d + 1 : Nat) : Int) Keyword.superWord.text)
        (F.own? c ((d + 1 : Nat) : Int) Keyword.superWord.text) ∧
      (agreement P).SameOwn Value.IsInstance (F.own? c (((d + 1 : Nat) : Int) - 1) Keyword.thisWord.text)
        (F.own? c (((d + 1 : Nat) : Int) - 1) Keyword.thisWord.text) := by
  obtain ⟨k, hk⟩ := super_bound own hf super
  obtain ⟨i, hi⟩ := this_bound own hf this
  have inner : ((d + 1 : Nat) : Int) - 1 = (d : Int) := by omega
  rw [inner]
  exact ⟨⟨rfl, .inr ⟨_, hk, k, rfl⟩⟩, ⟨rfl, .inr ⟨_, hi, i, rfl⟩⟩⟩

end Laws

theorem lawful (P : Context → Node Binding → Prop) :
    (agreement P).Lawful where
  le_refl := Frames.Extends.refl
  le_trans := Frames.Extends.trans
  chain_mono := fun hw hc => ⟨hc.1, hc.2.mono hw⟩
  chain_head := by
    rintro w Γ F F' c c' ⟨rfl, rfl, _, hF⟩ ⟨rfl, hf⟩
    obtain ⟨id, outer, rfl, hid⟩ := hf.head hF
    exact ⟨id, outer, id, outer, rfl, rfl, hid, hid⟩
  failure_line := by
    rintro Γ l l' cause lexeme rfl
    rfl
  failure_read := by
    rintro Γ n r n' r' cause ⟨same, _⟩
    cases same
    rfl
  lookUp := by
    rintro w Γ F F' c c' n r n' r' ⟨rfl, rfl, _, _⟩ ⟨rfl, hf⟩ ⟨same, hfinds⟩
    cases same
    exact sameAccess_of_cases (fun _ => rfl) (lookUp_cases hf hfinds)
  target := by
    rintro w Γ F F' c c' n r n' r' ⟨rfl, rfl, own, hF⟩ ⟨rfl, hf⟩ ⟨same, hn, hd⟩
    cases same
    exact target_self own hF hf hn hd
  declare := by
    rintro w Γ Γ₁ F F' id id' c c' n n' slot ⟨rfl, rfl, own, hF⟩ ⟨same, hf⟩ ⟨rfl, hn, rfl⟩
    cases same
    exact declare_self own hF hf hn slot
  declare_again := by
    rintro Γ n n' Γ₁ ⟨rfl, hn, rfl⟩
    exact ⟨rfl, hn, (Context.mark_mark Γ n.text true true).symm⟩
  enter := by
    rintro w Γ Γ₁ F F' c c' ⟨rfl, rfl, own, hF⟩ ⟨rfl, hf⟩ rfl
    exact enter_self own hF hf
  enterFunction := by
    rintro w Γ Γ₁ F F' c c' ps ps' vs ⟨rfl, rfl, own, hF⟩ ⟨rfl, hf⟩ ⟨rfl, ids, k, _, rfl⟩ length
    exact enterFunction_self own hF hf ids k length
  parameters_length := by
    rintro Γ ps ps' Γ₁ ⟨rfl, _⟩
    rfl
  enterSuper := by
    rintro w Γ F F' c c' id ⟨rfl, rfl, own, hF⟩ ⟨rfl, hf⟩
    exact enterSuper_self own hF hf id
  enterThis := by
    rintro w Γ F F' c c' b id ⟨rfl, rfl, own, hF⟩ ⟨rfl, hf⟩
    exact enterThis_self own hF hf b id
  initial_this := fun _ _ => rfl
  ownThis := by
    rintro w Γ F F' c c' ⟨rfl, rfl, own, _⟩ ⟨rfl, hf⟩ hi
    obtain ⟨i, hthis⟩ := this_bound own hf hi
    exact ⟨rfl, .inr ⟨_, hthis, trivial⟩⟩
  superRef_cases := by
    rintro Γ r r' ⟨rfl, d, rfl, _⟩
    exact .inr ⟨_, _, rfl, rfl⟩
  ownSuper := by
    rintro w Γ F F' c c' d d' ⟨rfl, rfl, own, _⟩ ⟨rfl, hf⟩ ⟨same, e, hd, this, super⟩
    cases same
    cases hd
    exact ownSuper_self own hf this super
  returns_enter := by
    rintro Γ Γ₁ rfl h
    exact h
  returns_declare := by
    rintro Γ n n' Γ₁ ⟨_, _, rfl⟩ h
    show Context.function Γ ≠ .outside
    rw [← Context.function_mark Γ n.text true]
    exact h
  expr_parts := expr_parts
  stmt_parts := stmt_parts

end agreement

end LoxScript
