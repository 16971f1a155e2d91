import LoxScript.Proofs.Method.Keep

/-!
# Activations during a run

Every piece of code inside a class runs for an activation of a method of that class. One layer of evaluation keeps
this so if the layers below do; induction on the depth that is left carries it to whole runs.
-/

namespace LoxScript

def Node.Scoped (Γ : Context) : Node Binding → Prop
  | .expr e => e.Scoped Unlabelled Γ
  | .stmt s => s.Scoped Unlabelled Γ

structure Machine.Ready (m : Machine) (Γ : Context) (n : Node Binding) : Prop where
  linked : m.heap.Linked
  serves : m.heap.Serves Γ m.chain n

namespace Machine

variable {m m' : Machine} {Γ : Context} {n : Node Binding}

theorem Later.serves (later : m.Later m') (hs : m.heap.Serves Γ m.chain n) : m'.heap.Serves Γ m'.chain n := by
  rw [later.chain]
  exact hs.mono later.grows

theorem Later.isOrdinary (later : m.Later m') (ordinary : m.heap.IsOrdinary m.chain) :
    m'.heap.IsOrdinary m'.chain := by
  rw [later.chain]
  exact ordinary.mono later.grows

namespace Ready

theorem later (h : m.Ready Γ n) (later : m.Later m') : m'.Ready Γ n :=
  ⟨later.linked, later.serves h.serves⟩

theorem part (h : m.Ready Γ n) {n' : Node Binding} (hn : n' ∈ n.parts) : m.Ready Γ n' :=
  ⟨h.linked, h.serves.part hn⟩

/-- `this` stands in the code of an activation. -/
theorem this {line : Int} {ref : Binding} (h : m.Ready Γ (.expr (.this line ref)))
    (ws : (Expr.this line ref).Scoped Unlabelled Γ) :
    ∃ d a, ref = .scoped d ∧ m.heap.Activates m.chain d (.expr (.this line ref)) a := by
  cases ws with
  | this _ inside bound =>
      obtain ⟨d, a, own, activates⟩ := h.serves inside
      refine ⟨d, a, ?_, activates⟩
      rw [bound, Binding.ofScopes, own.this]

/-- `super` stands in the code of an activation whose class has a superclass. -/
theorem super {line : Int} {name : Name} {ref : Binding} (h : m.Ready Γ (.expr (.super line name ref)))
    (ws : (Expr.super line name ref).Scoped Unlabelled Γ) :
    ∃ d a superclass, ref = .scoped (d + 1) ∧ m.heap.Activates m.chain d (.expr (.super line name ref)) a ∧
      a.owner.superclass = some superclass := by
  cases ws with
  | super _ derived bound =>
      have inside : Γ.classContext ≠ .outside := by
        rw [derived]
        nofun
      obtain ⟨d, a, own, activates⟩ := h.serves inside
      obtain ⟨distance, isSome⟩ := own.super derived
      obtain ⟨superclass, hs⟩ := Option.isSome_iff_exists.1 isSome
      refine ⟨d, a, superclass, ?_, activates, hs⟩
      rw [bound, Binding.ofScopes, distance]

end Ready

end Machine

/-- The heap after a method was bound to an instance: a frame for `this` and a function are new. -/
def Heap.addBound (h : Heap) (object : InstanceId) (method : Closure) : Heap :=
  let (frame, h) := h.addFrame (.singleton Keyword.thisWord.text (.value (.instanceRef object)))
  (h.addClosure { method with chain := frame :: method.chain }).2

namespace Run

def KeepsExprs (Q : Prop) (evaluate : Expr Binding → Run Value) : Prop :=
  ∀ m Γ e, e.Scoped Unlabelled Γ → m.Ready Γ (.expr e) → Kept Q m (fun _ _ => True) (evaluate e m)

def KeepsStmts (Q : Prop) (execute : Stmt Binding → Run Value) : Prop :=
  ∀ m Γ s, s.Scoped Unlabelled Γ → m.Ready Γ (.stmt s) → m.heap.IsOrdinary m.chain →
    Kept Q m (fun _ _ => True) (execute s m)

/-! ## What `this` and `super` evaluate to -/

variable {m : Machine} {d : Nat} {n : Node Binding} {a : Activation}

theorem lookUp_this (ha : m.heap.Activates m.chain d n a) (line : Int) :
    lookUp ⟨Keyword.thisWord.text, line⟩ (.scoped d) m = .ok (.instanceRef a.object) m := by
  have found : m.heap.frames.lookUp m.chain ⟨Keyword.thisWord.text, line⟩ (.scoped d) =
      .ok (.instanceRef a.object) := by
    unfold Frames.lookUp Frames.getAt
    dsimp only
    rw [ha.slotAt_this rfl]
    rfl
  rw [lookUp_eq, found, access_ok]

/-- `super` gives the method of the superclass in which the class of the activation was made, whatever the class of
the instance. -/
theorem getSuper_eq (hl : m.heap.Linked) (ha : m.heap.Activates m.chain d n a) {superclass : ClassId}
    (hs : a.owner.superclass = some superclass) (name : Name) :
    getSuper name (.scoped (d + 1)) m = boundMethod superclass a.object name m := by
  have super : m.heap.frames.own? m.chain ((d + 1 : Nat) : Int) Keyword.superWord.text =
      some (.classRef superclass) := Frames.own?_eq_some.2 (hl.slotAt_super ha hs rfl)
  have this : m.heap.frames.own? m.chain (((d + 1 : Nat) : Int) - 1) Keyword.thisWord.text =
      some (.instanceRef a.object) := Frames.own?_eq_some.2 (ha.slotAt_this (by omega))
  unfold getSuper
  dsimp only
  rw [get_bind, bind_of_ok _ (lookUpOwn_of_some super), bind_of_ok _ (lookUpOwn_of_some this)]
  rfl

/-- All methods of a class have the environment of the class. -/
theorem methodTable_cases {chain : Chain} {methods : List (FunctionDecl Binding)} {name : String}
    {method : Closure} (found : (methodTable chain methods).find? name = some method) :
    method.chain = chain ∧ method.decl ∈ methods := by
  unfold methodTable at found
  obtain ⟨decl, hd, same⟩ := List.mem_map.1 (Table.mem_of_find?_ofList found)
  cases same
  exact ⟨rfl, hd⟩

/-- The method of a class is found among the classes alone. Bound to an instance, it is a new function. -/
theorem boundMethod_eq (k : ClassId) (object : InstanceId) (name : Name) (m : Machine) :
    boundMethod k object name m =
      match m.heap.method? k name.text with
      | some method => .ok (.closureRef m.heap.closures.size) { m with heap := m.heap.addBound object method }
      | none => .error (.error ⟨.undefinedProperty name.text, name.text, name.line⟩) m := by
  unfold boundMethod
  rw [get_bind]
  cases m.heap.method? k name.text with
  | some method => rfl
  | none => rfl

namespace Kept

variable {Q : Prop} {evaluate : Expr Binding → Run Value} {execute : Stmt Binding → Run Value} {Γ : Context}

/-! ## Lists and blocks -/

theorem evaluateAll (he : KeepsExprs Q evaluate) {es : List (Expr Binding)} (hl : m.heap.Linked)
    (ws : ∀ e ∈ es, e.Scoped Unlabelled Γ) (hs : ∀ e ∈ es, m.heap.Serves Γ m.chain (.expr e)) :
    Kept Q m (fun _ _ => True) (Run.evaluateAll evaluate es m) := by
  induction es generalizing m with
  | nil => exact .pure hl trivial
  | cons e es ih =>
      have first := he m Γ e (ws e List.mem_cons_self) ⟨hl, hs e List.mem_cons_self⟩
      refine first.bind fun v m₁ later₁ _ => ?_
      have rest := ih later₁.linked (fun e' he' => ws e' (List.mem_cons_of_mem _ he'))
        fun e' he' => later₁.serves (hs e' (List.mem_cons_of_mem _ he'))
      exact rest.bind fun vs m₂ later₂ _ => .pure later₂.linked trivial

theorem executeAll (hx : KeepsStmts Q execute) {ss : List (Stmt Binding)} (hl : m.heap.Linked)
    (ws : Stmts.Scoped Unlabelled Γ ss) (hs : ∀ s ∈ ss, m.heap.Serves Γ m.chain (.stmt s))
    (ordinary : m.heap.IsOrdinary m.chain) : Kept Q m (fun _ _ => True) (Run.executeAll execute ss m) := by
  induction ss generalizing m Γ with
  | nil => exact .pure hl trivial
  | cons s ss ih =>
      cases ws with
      | cons first rest =>
          refine (hx m Γ s first ⟨hl, hs s List.mem_cons_self⟩ ordinary).bind fun _ m' later _ => ?_
          refine ih later.linked rest (fun t ht => ?_) (later.isOrdinary ordinary)
          exact later.serves ((hs t (List.mem_cons_of_mem _ ht)).after first)

theorem executeBlock (hx : KeepsStmts Q execute) {chain : Chain} {frame : Frame} {body : List (Stmt Binding)}
    (hl : m.heap.Linked) (ws : Stmts.Scoped Unlabelled Γ body)
    (hs : ∀ s ∈ body, m.heap.Serves Γ (m.heap.frames.size :: chain) (.stmt s))
    (ordinary : frame.find? Keyword.superWord.text = none) :
    Kept Q m (fun _ _ => True) (Run.executeBlock execute chain frame body m) := by
  have later := Machine.Later.addFrame hl frame
  have made : newFrame frame m = .ok m.heap.frames.size { m with heap := (m.heap.addFrame frame).2 } := rfl
  unfold Run.executeBlock
  rw [bind_of_ok _ made]
  refine (inChain (executeAll hx later.linked ws (fun s h => (hs s h).mono later.grows) ?_)).earlier later
  exact ⟨_, _, rfl, by simp [Heap.addFrame], (m.heap.find?_addFrame frame _).trans ordinary⟩

/-! ## Calls -/

theorem callClosure (hx : KeepsStmts Q execute) (hl : m.heap.Linked) {c : Closure} (hc : m.heap.Sited c)
    (vs : List Value) : Kept Q m (fun _ _ => True) (Run.callClosure execute c vs m) := by
  obtain ⟨Γ, kind, ws, serves⟩ := hc
  obtain ⟨⟨name, params, body⟩, chain, isInitializer⟩ := c
  cases ws with
  | mk declares scopes =>
      have ordinary : (Table.ofList ((params.map Name.text).zip (vs.map Slot.value))).find?
          Keyword.superWord.text = none := by
        refine Option.eq_none_iff_forall_not_mem.2 fun slot found => ?_
        have named := (List.of_mem_zip (Table.mem_of_find?_ofList found)).1
        obtain ⟨p, hp, same⟩ := List.mem_map.1 named
        exact (declares.identifier p hp).ne_keyword _ same
      have called : Kept Q m (fun _ _ => True) (Run.executeBlock execute chain _ body m) :=
        executeBlock hx hl scopes
          (fun s hs => ((serves s hs).inFunction m.heap.frames.size kind).markAll declares) ordinary
      unfold Run.callClosure
      refine called.catchReturn.bind fun result m' later _ => ?_
      cases isInitializer with
      | true => exact .lookUpOwn later.linked chain 0 Keyword.thisWord.text
      | false => exact .pure later.linked trivial

theorem boundMethod (hl : m.heap.Linked) {k : ClassId} {object : InstanceId} {i : Instance}
    (hi : m.heap.instances[object]? = some i) (descends : m.heap.Descends i.classId k) (name : Name) :
    Kept Q m (fun _ _ => True) (Run.boundMethod k object name m) := by
  unfold Run.boundMethod
  rw [get_bind]
  cases found : m.heap.method? k name.text with
  | none => exact .failAt hl _ name
  | some method =>
      obtain ⟨owner, c, further, made⟩ := Heap.made_of_method? found
      refine (Kept.bindMethod hl made hi (descends.trans further)).bind fun b m' later sited => ?_
      exact .newClosure later.linked sited

theorem getProperty (hl : m.heap.Linked) (v : Value) (name : Name) :
    Kept Q m (fun _ _ => True) (Run.getProperty v name m) := by
  cases v with
  | plain l => exact .failAt hl _ name
  | native f => exact .failAt hl _ name
  | closureRef id => exact .failAt hl _ name
  | classRef id => exact .failAt hl _ name
  | instanceRef id =>
      unfold Run.getProperty
      refine (Kept.instanceAt hl id).bind fun i m' later hi => ?_
      cases i.fields.find? name.text with
      | some v => exact .pure later.linked trivial
      | none => exact boundMethod later.linked hi (.refl i.classId) name

theorem instantiate (hx : KeepsStmts Q execute) (hl : m.heap.Linked) (id : ClassId) (vs : List Value) :
    Kept Q m (fun _ _ => True) (Run.instantiate execute id vs m) := by
  have later : m.Later { m with heap := (m.heap.addInstance id).2 } :=
    ⟨rfl, hl.addInstance id, m.heap.grows_addInstance id⟩
  have object : (m.heap.addInstance id).2.instances[m.heap.instances.size]? = some ⟨id, .empty⟩ := by
    simp [Heap.addInstance]
  unfold Run.instantiate
  rw [bind_of_ok _ (newInstance_eq id m), get_bind]
  refine Kept.earlier later ?_
  cases found : (m.heap.addInstance id).2.initializer? id with
  | none => exact .pure later.linked trivial
  | some method =>
      obtain ⟨owner, c, descends, made⟩ := Heap.made_of_method? found
      refine (Kept.bindMethod later.linked made object descends).bind fun b m₁ later₁ sited => ?_
      exact (callClosure hx later₁.linked sited vs).bind fun _ m₂ later₂ _ => .pure later₂.linked trivial

theorem call (hx : KeepsStmts Q execute) (hl : m.heap.Linked) (f : Value) (vs : List Value) (line : Int) :
    Kept Q m (fun _ _ => True) (Run.call execute f vs line m) := by
  unfold Run.call
  rw [get_bind]
  cases m.heap.arity? f with
  | none => exact .fail hl _ _ line
  | some arity =>
      dsimp only
      split
      · exact .fail hl _ _ line
      · cases f with
        | plain l => exact .throw hl nofun
        | instanceRef id => exact .throw hl nofun
        | classRef id => exact instantiate hx hl id vs
        | closureRef id =>
            refine (Kept.closureAt hl id).bind fun c m' later sited => ?_
            exact callClosure hx later.linked sited vs
        | native f =>
            cases f with
            | clock => exact .readClock hl
            | idle name id => exact .pure hl trivial

/-! ## Classes -/

theorem superclassOf (hl : m.heap.Linked) (superclass : Option (Name × Binding)) :
    Kept Q m (fun s _ => s.isSome = superclass.isSome) (Run.superclassOf superclass m) := by
  cases superclass with
  | none => exact .pure hl rfl
  | some reference =>
      obtain ⟨name, ref⟩ := reference
      unfold Run.superclassOf
      refine (Kept.lookUp hl name ref).bind fun v m' later _ => ?_
      cases v with
      | classRef id => exact .pure later.linked rfl
      | plain _ | native _ | closureRef _ | instanceRef _ => exact .failAt later.linked _ name

theorem makeClass (hl : m.heap.Linked) (ordinary : m.heap.IsOrdinary m.chain) (name : Name)
    (superclass : Option ClassId) {methods : List (FunctionDecl Binding)}
    (hms : ∀ decl ∈ methods, ∃ Γ kind, Γ.Own 0 superclass.isSome ∧ decl.Scoped Unlabelled kind Γ) :
    Kept Q m (fun _ _ => True) (Run.makeClass name superclass methods m) := by
  unfold Run.makeClass
  cases superclass with
  | none =>
      obtain ⟨head, outer, chain, bound, unbound⟩ := ordinary
      have found : Run.methodChain none m = .ok m.chain m := rfl
      rw [bind_of_ok _ found, chain]
      refine .newClass hl head (fun _ method hm => ?_) (fun _ method hm => ?_) fun isSome => nomatch isSome
      · obtain ⟨same, hd⟩ := methodTable_cases hm
        exact ⟨hms _ hd, head, outer, same, bound, unbound⟩
      · rw [(methodTable_cases hm).1, List.head?_cons]
  | some k =>
      let frame : Frame := .singleton Keyword.superWord.text (.value (.classRef k))
      have later := Machine.Later.addFrame hl frame
      have found : Run.methodChain (some k) m =
          .ok (m.heap.frames.size :: m.chain) { m with heap := (m.heap.addFrame frame).2 } := rfl
      rw [bind_of_ok _ found]
      refine Kept.earlier later ?_
      refine .newClass later.linked m.heap.frames.size (fun _ method hm => ?_) (fun _ method hm => ?_) fun _ => ?_
      · obtain ⟨same, hd⟩ := methodTable_cases hm
        refine ⟨hms _ hd, m.heap.frames.size, m.chain, same, by simp [Heap.addFrame], ?_⟩
        rw [Heap.find?_addFrame, Table.find?_singleton, if_pos rfl]
        rfl
      · rw [(methodTable_cases hm).1, List.head?_cons]
      · exact hl.unused_addFrame frame

theorem declareClass (hl : m.heap.Linked) (ordinary : m.heap.IsOrdinary m.chain) {name : Name}
    {superclass : Option (Name × Binding)} {methods : List (FunctionDecl Binding)} (hn : name.IsIdentifier)
    (hms : ∀ decl ∈ methods, ∃ Γ kind, Γ.Own 0 superclass.isSome ∧ decl.Scoped Unlabelled kind Γ) :
    Kept Q m (fun _ _ => True) (Run.declareClass name superclass methods m) := by
  obtain ⟨head, outer, chain, bound, _⟩ := id ordinary
  rw [declareClass_eq chain bound]
  refine (Kept.superclassOf hl superclass).bind fun s m₁ later₁ same => ?_
  refine (Kept.define later₁.linked hn _).bind fun _ m₂ later₂ _ => ?_
  rw [← same] at hms
  have ordinary₂ := (later₁.trans later₂).isOrdinary ordinary
  exact (makeClass later₂.linked ordinary₂ name s hms).bind fun v m₃ later₃ _ => .define later₃.linked hn _

end Kept

/-! ## One layer -/

variable {Q : Prop} {evaluate : Expr Binding → Run Value} {execute : Stmt Binding → Run Value}

theorem KeepsExprs.step (he : KeepsExprs Q evaluate) (hx : KeepsStmts Q execute) :
    KeepsExprs Q (evaluateStep evaluate execute) := by
  intro m Γ e ws ready
  -- A part of the expression, at the same moment or at a later one.
  have part : ∀ {m' e'}, m.Later m' → e'.Scoped Unlabelled Γ → Node.expr e' ∈ (Node.expr e).parts →
      Kept Q m' (fun _ _ => True) (evaluate e' m') :=
    fun later ws hp => he _ Γ _ ws ((ready.part hp).later later)
  have here := Machine.Later.refl ready.linked
  cases e with
  | literal v => exact .pure ready.linked trivial
  | grouping e =>
      cases ws with
      | grouping _ ws => exact part here ws (by simp [Node.parts])
  | unary op line e =>
      cases ws with
      | unary _ ws =>
          refine (part here ws (by simp [Node.parts])).bind fun v m₁ later₁ _ => ?_
          exact .operate later₁.linked _ _ _
  | binary op line a b =>
      cases ws with
      | binary _ wa wb =>
          refine (part here wa (by simp [Node.parts])).bind fun v m₁ later₁ _ => ?_
          refine (part later₁ wb (by simp [Node.parts])).bind fun w m₂ later₂ _ => ?_
          exact .operate later₂.linked _ _ _
  | logical op line a b =>
      cases ws with
      | logical _ wa wb =>
          refine (part here wa (by simp [Node.parts])).bind fun v m₁ later₁ _ => ?_
          cases op.decidedBy v with
          | true => exact .pure later₁.linked trivial
          | false => exact part later₁ wb (by simp [Node.parts])
  | var name ref => exact .lookUp ready.linked name ref
  | assign name ref e =>
      cases ws with
      | assign _ hn _ ws =>
          refine (part here ws (by simp [Node.parts])).bind fun v m₁ later₁ _ => ?_
          exact (Kept.store later₁.linked hn ref v).bind fun _ m₂ later₂ _ => .pure later₂.linked trivial
  | call f line es =>
      cases ws with
      | call _ wf wes =>
          refine (part here wf (by simp [Node.parts])).bind fun v m₁ later₁ _ => ?_
          have isPart : ∀ e ∈ es, Node.expr e ∈ (Node.expr (.call f line es)).parts :=
            fun e h => by simp [Node.parts, h]
          have arguments := Kept.evaluateAll he later₁.linked wes fun e h =>
            later₁.serves (ready.part (isPart e h)).serves
          exact arguments.bind fun vs m₂ later₂ _ => .call hx later₂.linked v vs line
  | get e name =>
      cases ws with
      | get _ ws =>
          refine (part here ws (by simp [Node.parts])).bind fun v m₁ later₁ _ => ?_
          exact .getProperty later₁.linked v name
  | set e name e' =>
      cases ws with
      | set _ ws ws' =>
          refine (part here ws (by simp [Node.parts])).bind fun v m₁ later₁ _ => ?_
          cases v with
          | instanceRef id =>
              refine (part later₁ ws' (by simp [Node.parts])).bind fun w m₂ later₂ _ => ?_
              exact (Kept.setField later₂.linked id name.text w).bind fun _ m₃ later₃ _ => .pure later₃.linked trivial
          | plain _ | native _ | closureRef _ | classRef _ => exact .failAt later₁.linked _ name
  | this line ref => exact .lookUp ready.linked _ ref
  | super line name ref =>
      obtain ⟨d, a, superclass, rfl, activates, hs⟩ := ready.super ws
      obtain ⟨i, hi, descends⟩ := activates.descends
      show Kept Q m _ (getSuper name (.scoped (d + 1)) m)
      rw [getSuper_eq ready.linked activates hs]
      exact .boundMethod ready.linked hi (descends.trans (.inherits activates.made.1 hs (.refl superclass))) name

theorem KeepsStmts.step (iterations : Nat) (he : KeepsExprs Q evaluate) (hx : KeepsStmts Q execute) :
    KeepsStmts Q (executeStep iterations evaluate execute) := by
  intro m Γ s ws ready ordinary
  have expr : ∀ {m' e}, m.Later m' → e.Scoped Unlabelled Γ → Node.expr e ∈ (Node.stmt s).parts →
      Kept Q m' (fun _ _ => True) (evaluate e m') :=
    fun later we hp => he _ Γ _ we ((ready.part hp).later later)
  have stmt : ∀ {m' t}, m.Later m' → t.Scoped Unlabelled Γ → Node.stmt t ∈ (Node.stmt s).parts →
      Kept Q m' (fun _ _ => True) (execute t m') :=
    fun later wt hp => hx _ Γ _ wt ((ready.part hp).later later) (later.isOrdinary ordinary)
  have thenNil : ∀ {α : Type} {x : Run α} {m' : Machine}, Kept Q m' (fun _ _ => True) (x m') →
      Kept Q m' (fun _ _ => True) ((x >>= fun _ => return .nil : Run Value) m') :=
    fun hx => hx.bind fun _ _ later _ => .pure later.linked trivial
  have here := Machine.Later.refl ready.linked
  cases ws with
  | expression _ we => exact expr here we (by simp [Node.parts])
  | print _ we =>
      refine (expr here we (by simp [Node.parts])).bind fun v m₁ later₁ _ => ?_
      exact thenNil (.print later₁.linked v)
  | @var _ name e _ declares we =>
      cases e with
      | none => exact thenNil (.define ready.linked declares.identifier _)
      | some e =>
          -- The initializer stands where its variable is declared already.
          have serves := (ready.part (List.mem_singleton.2 rfl)).serves.mark declares.identifier false
          refine (he m _ e (we e rfl) ⟨ready.linked, serves⟩).bind fun v m₁ later₁ _ => ?_
          exact thenNil (.define later₁.linked declares.identifier _)
  | @block _ body _ wb =>
      have isPart : ∀ t ∈ body, Node.stmt t ∈ (Node.stmt (.block body)).parts :=
        fun t h => by simp [Node.parts, h]
      refine thenNil ?_
      exact .executeBlock hx ready.linked wb (fun t h => (ready.part (isPart t h)).serves.push _) rfl
  | @function _ decl _ declares wd =>
      have isPart : ∀ t ∈ decl.body, Node.stmt t ∈ (Node.stmt (.function decl)).parts :=
        fun t h => by simp [Node.parts, h]
      have sited : m.heap.Sited ⟨decl, m.chain, false⟩ :=
        ⟨_, _, wd, fun t h => (ready.part (isPart t h)).serves.mark declares.identifier true⟩
      show Kept Q m _ ((newClosure ⟨decl, m.chain, false⟩ >>= fun f =>
        define decl.name.text (.value f) >>= fun _ => return Value.nil) m)
      refine (Kept.newClosure ready.linked sited).bind fun f m₁ later₁ _ => ?_
      exact thenNil (.define later₁.linked declares.identifier _)
  | @classDecl _ name superclass methods _ declares _ wd =>
      refine thenNil (.declareClass ready.linked ordinary declares.identifier fun decl h => ?_)
      refine ⟨_, _, Context.own_inClass _ fun derived => ?_, wd decl h⟩
      cases superclass with
      | none => cases derived
      | some p => rfl
  | @ite _ c t e _ wc _ wt _ we =>
      refine (expr here wc (by simp [Node.parts])).bind fun v m₁ later₁ _ => ?_
      cases v.isTruthy with
      | true => exact thenNil (stmt later₁ wt (by simp [Node.parts]))
      | false =>
          cases e with
          | none => exact .pure later₁.linked trivial
          | some e => exact thenNil (stmt later₁ (we e rfl) (by simp [Node.parts]))
  | @ret _ line e _ _ _ we =>
      cases e with
      | none => exact .throw ready.linked nofun
      | some e =>
          refine (expr here (we e rfl) (by simp [Node.parts])).bind fun v m₁ later₁ _ => ?_
          exact .throw later₁.linked nofun
  | @loop _ c b _ wc _ wb =>
      refine thenNil (.repeatWhile ready.linked (fun m' later => ?_) (fun m' later => ?_) iterations)
      · exact (expr later wc (by simp [Node.parts])).bind fun v _ later' _ => .pure later'.linked trivial
      · exact (stmt later wb (by simp [Node.parts])).bind fun _ _ later' _ => .pure later'.linked trivial

/-! ## Whole runs -/

/-- Up to a breakpoint, all code that runs is ready to run. -/
theorem keeps_evaluateTo_executeTo {hit : Breakpoint} (hq : ∀ m Γ n, n.Scoped Γ → m.Ready Γ n → hit n m → Q)
    (iterations depth : Nat) :
    KeepsExprs Q (evaluateTo hit .breakpoint iterations depth) ∧
      KeepsStmts Q (executeTo hit .breakpoint iterations depth) := by
  have expr : ∀ {x : Expr Binding → Run Value}, KeepsExprs Q x →
      KeepsExprs Q fun e => pausing hit .breakpoint (.expr e) (x e) :=
    fun hx m Γ e ws ready => .pausing ready.linked (hq m Γ (.expr e) ws ready) (hx m Γ e ws ready)
  have stmt : ∀ {x : Stmt Binding → Run Value}, KeepsStmts Q x →
      KeepsStmts Q fun s => pausing hit .breakpoint (.stmt s) (x s) :=
    fun hx m Γ s ws ready ordinary =>
      .pausing ready.linked (hq m Γ (.stmt s) ws ready) (hx m Γ s ws ready ordinary)
  induction depth with
  | zero =>
      exact ⟨expr fun _ _ _ _ ready => .throw ready.linked nofun,
        stmt fun _ _ _ _ ready _ => .throw ready.linked nofun⟩
  | succ depth ih => exact ⟨expr (ih.1.step ih.2), stmt (KeepsStmts.step iterations ih.1 ih.2)⟩

theorem Kept.programWith (hx : KeepsStmts Q execute) {Γ : Context} {ss : List (Stmt Binding)}
    (hl : m.heap.Linked) (ws : Stmts.Scoped Unlabelled Γ ss) (hs : ∀ s ∈ ss, m.heap.Serves Γ m.chain (.stmt s))
    (ordinary : m.heap.IsOrdinary m.chain) (last : Value) :
    Kept Q m (fun _ _ => True) (Run.programWith execute last ss m) := by
  induction ss generalizing m Γ last with
  | nil => exact .pure hl trivial
  | cons s ss ih =>
      cases ws with
      | cons first rest =>
          refine (hx m Γ s first ⟨hl, hs s List.mem_cons_self⟩ ordinary).bind fun v m' later _ => ?_
          refine ih later.linked rest (fun t ht => ?_) (later.isOrdinary ordinary) v
          exact later.serves ((hs t (List.mem_cons_of_mem _ ht)).after first)

end Run

namespace Machine

/-- Machines in top-level code that only well-scoped programs have worked on. -/
structure Linked (m : Machine) : Prop where
  heap : m.heap.Linked
  ordinary : m.heap.IsOrdinary m.chain

namespace Linked

variable {m₀ m : Machine} {program : List (Stmt Binding)} {limits : Limits}

theorem start (clock : Nat → Float) : (Machine.start clock).Linked :=
  ⟨.start, 0, [], rfl, Nat.zero_lt_one, rfl⟩

/-- What was printed does not matter. -/
theorem forgetPrinted (h : m.Linked) : Machine.Linked { m with printed := #[] } :=
  ⟨h.heap, h.ordinary⟩

theorem programTo (h : m₀.Linked) (ws : Stmts.Scoped Unlabelled .top program) {Q : Prop} {hit : Breakpoint}
    (hq : ∀ m Γ n, n.Scoped Γ → m.Ready Γ n → hit n m → Q) (limits : Limits) :
    Run.Kept Q m₀ (fun _ _ => True) (Run.programTo hit .breakpoint limits program m₀) :=
  .programWith (Run.keeps_evaluateTo_executeTo hq _ _).2 h.heap ws (fun _ _ inside => absurd rfl inside) h.ordinary
    .nil

/-- A run leaves a linked machine, however it ends. -/
theorem run (h : m₀.Linked) (ws : Stmts.Scoped Unlabelled .top program) (limits : Limits) :
    (m₀.run limits program).2.Linked := by
  have kept := h.programTo ws (Q := False) (fun _ _ _ _ _ never => never) limits
  rw [Run.programTo_never] at kept
  unfold Machine.run
  generalize Run.program limits .nil program m₀ = x at kept
  cases kept with
  | ok later _ => exact ⟨later.linked, later.isOrdinary h.ordinary⟩
  | error later _ => exact ⟨later.linked, later.isOrdinary h.ordinary⟩

/-- Whenever a run comes to a piece of the program, the piece is ready to run. -/
theorem ready (h : m₀.Linked) (ws : Stmts.Scoped Unlabelled .top program) {n : Node Binding}
    (comes : m₀.ComesTo limits program n m) : ∃ Γ, n.Scoped Γ ∧ m.Ready Γ n := by
  obtain ⟨m', ends⟩ := comes .breakpoint nofun
  have here : ∀ m' Γ n', n'.Scoped Γ → m'.Ready Γ n' → n' = n ∧ m' = m → ∃ Γ, n.Scoped Γ ∧ m.Ready Γ n := by
    rintro m' Γ n' ws ready ⟨rfl, rfl⟩
    exact ⟨Γ, ws, ready⟩
  have kept := h.programTo ws here limits
  rw [ends] at kept
  cases kept with
  | error _ hq => exact hq rfl

end Linked

end Machine

end LoxScript
