import LoxScript.Proofs.Lockstep.Operation

/-!
# Calls and classes in lockstep

What calls, property accesses and class declarations do to machines that correspond, for any two ways to run
the bodies of functions that run in lockstep.
-/

namespace LoxScript

namespace Run

/-- The method of a class, bound to an instance: what both kinds of property access end with. -/
def boundMethod (k : ClassId) (id : InstanceId) (name : Name) : Run Value := do
  match (← get).heap.method? k name.text with
  | some m => newClosure (← bindMethod id m)
  | none => failAt (.undefinedProperty name.text) name

def makeClass (name : Name) (superclass : Option ClassId) (methods : List (FunctionDecl Binding)) :
    Run Value := do
  let chain ← methodChain superclass
  newClass ⟨name.text, superclass, methodTable chain methods⟩

/-- Finding the superclass changes nothing. -/
theorem superclassOf_cases (superclass : Option (Name × Binding)) (m : Machine) :
    (∃ s, superclassOf superclass m = .ok s m) ∨ ∃ stop, superclassOf superclass m = .error stop m := by
  cases superclass with
  | none => exact .inl ⟨none, rfl⟩
  | some reference =>
      obtain ⟨name, ref⟩ := reference
      unfold superclassOf
      dsimp only
      cases h : m.heap.frames.lookUp m.chain name ref with
      | error e =>
          have hl : lookUp name ref m = .error e.stop m := by rw [lookUp_eq, h, access_error]
          rw [bind_of_error _ hl]
          exact .inr ⟨_, rfl⟩
      | ok v =>
          have hl : lookUp name ref m = .ok v m := by rw [lookUp_eq, h, access_ok]
          rw [bind_of_ok _ hl]
          cases v with
          | classRef id => exact .inl ⟨_, rfl⟩
          | plain _ | native _ | closureRef _ | instanceRef _ => exact .inr ⟨_, rfl⟩

theorem holder_innermost {frames : Frames} {id : FrameId} {outer : Chain} {name : Name}
    (h : (frames.find? id name.text).isSome) : frames.holder (id :: outer) name = .ok id := by
  unfold Frames.holder Frames.holder?
  rw [if_pos h]

/-- Making a class adds at most a frame, and leaves the environment as it is. -/
theorem makeClass_eq (name : Name) (superclass : Option ClassId) (methods : List (FunctionDecl Binding))
    (m : Machine) : ∃ v m', makeClass name superclass methods m = .ok v m' ∧ m'.chain = m.chain ∧
      ∀ id < m.heap.frames.size, ∀ name, m'.heap.frames.find? id name = m.heap.frames.find? id name := by
  cases superclass with
  | none => exact ⟨_, _, rfl, rfl, fun _ _ _ => rfl⟩
  | some k =>
      refine ⟨_, _, rfl, rfl, fun id hid name => ?_⟩
      show Frames.find? (m.heap.frames.push _) id name = _
      rw [Frames.find?_push, if_neg (Nat.ne_of_lt hid)]

theorem declareClass_eq_makeClass (name : Name) (superclass : Option (Name × Binding))
    (methods : List (FunctionDecl Binding)) : declareClass name superclass methods = (do
      let superclass ← superclassOf superclass
      define name.text (.value .nil)
      let made ← makeClass name superclass methods
      let m ← get
      let id ← access (m.heap.frames.holder m.chain name)
      modifyHeap (·.define id name.text (.value made))) := by
  unfold declareClass makeClass
  simp only [bind_assoc]

/-- A class is bound in the innermost frame: looking its name up finds what was just declared. -/
theorem declareClass_eq {m : Machine} {id : FrameId} {outer : Chain} (hc : m.chain = id :: outer)
    (hid : id < m.heap.frames.size) (name : Name) (superclass : Option (Name × Binding))
    (methods : List (FunctionDecl Binding)) :
    declareClass name superclass methods m = (do
      let superclass ← superclassOf superclass
      define name.text (.value .nil)
      let made ← makeClass name superclass methods
      define name.text (.value made) : Run Unit) m := by
  rw [declareClass_eq_makeClass]
  rcases superclassOf_cases superclass m with ⟨s, hs⟩ | ⟨stop, hs⟩
  · rw [bind_of_ok _ hs, bind_of_ok _ hs, bind_of_ok _ (define_eq _ _ hc), bind_of_ok _ (define_eq _ _ hc)]
    obtain ⟨v, m', made, hchain, hkept⟩ := makeClass_eq name s methods (stored m id name.text (.value .nil))
    have hchain' : m'.chain = id :: outer := hchain.trans hc
    have bound : (m'.heap.frames.find? id name.text).isSome := by
      rw [hkept id (by simpa [stored, Heap.define, Frames.size_define] using hid)]
      simp [stored, Heap.define, Frames.find?_define, hid]
    rw [bind_of_ok _ made, bind_of_ok _ made, define_eq _ _ hchain', get_bind, hchain',
      holder_innermost bound, bind_of_ok _ (access_ok _ _)]
    rfl
  · rw [bind_of_error _ hs, bind_of_error _ hs]

/-- A function is made before its name is bound; binding the name to nil first would make no difference. -/
theorem declareFunction_eq {m : Machine} {id : FrameId} {outer : Chain} (hc : m.chain = id :: outer)
    (decl : FunctionDecl Binding) (name : String) :
    (do let f ← newClosure ⟨decl, (← get).chain, false⟩
        define name (.value f) : Run Unit) m =
      (do define name (.value .nil)
          let f ← newClosure ⟨decl, id :: outer, false⟩
          define name (.value f) : Run Unit) m := by
  rw [get_bind, hc, bind_of_ok _ (define_eq _ _ hc)]
  have made : ∀ m : Machine, newClosure ⟨decl, id :: outer, false⟩ m =
      .ok (.closureRef m.heap.closures.size)
        { m with heap := (m.heap.addClosure ⟨decl, id :: outer, false⟩).2 } := fun _ => rfl
  rw [bind_of_ok _ (made m), bind_of_ok _ (made _)]
  have kept : ∀ (m : Machine) (heap : Heap), m.chain = id :: outer →
      ({ m with heap := heap } : Machine).chain = id :: outer := fun _ _ h => h
  have bound : (stored m id name (.value .nil)).chain = id :: outer := hc
  rw [define_eq _ _ (kept m _ hc), define_eq _ _ (kept (stored m id name (.value .nil)) _ bound)]
  simp only [stored, Heap.define, Heap.addClosure, Frames.define_define_self]

end Run

namespace Lockstep

def Evaluates (S : Lockstep) (X : Stop → Prop) (evaluate evaluate' : Expr Binding → Run Value) : Prop :=
  ∀ (t : S.Stage) Γ e e', S.expr Γ e e' → t.At Γ → S.InStep X t False S.Same (evaluate e) (evaluate' e')

def Executes (S : Lockstep) (X : Stop → Prop) (execute execute' : Stmt Binding → Run Value) : Prop :=
  ∀ (t : S.Stage) Γ s s' Γ₁, S.stmt Γ s s' Γ₁ → t.At Γ →
    S.InStep X t (S.returns Γ) (S.Done Γ₁) (execute s) (execute' s')

variable {S : Lockstep} {X : Stop → Prop} {α β : Type} {t u : S.Stage} {Γ Γ₁ : S.Site} {r : Prop}
  {execute execute' : Stmt Binding → Run Value}

/-! ## Functions -/

/-- The frame of the arguments of a call. -/
theorem FramesAdded.arguments (L : S.Lawful) {c c' : Chain} {ps ps' : List Name} {vs : List Value}
    (hchain : S.chain t.world Γ c c') (hp : S.enterFunction Γ ps ps' Γ₁) (hlen : vs.length = ps.length)
    (hvs : ∀ v ∈ vs, t.extent.Holds v) :
    S.FramesAdded t Γ₁ c c' (.ofList ((ps.map Name.text).zip (vs.map Slot.value)))
      (.ofList ((ps'.map Name.text).zip (vs.map Slot.value))) := by
  refine ⟨fun F F' hF => L.enterFunction vs hF hchain hp hlen, fun name v hv => ?_⟩
  have hmem := List.of_mem_zip (Table.mem_of_find?_ofList hv)
  obtain ⟨w, hw, he⟩ := List.mem_map.1 hmem.2
  cases he
  exact hvs _ hw

theorem InStep.callClosure (L : S.Lawful) (hx : S.Executes X execute execute') {c c' : Closure}
    (hc : S.ClosureMatch t.world c c') {vs : List Value} (hlen : vs.length = c.arity)
    (hvs : ∀ v ∈ vs, t.extent.Holds v) :
    S.InStep X t r S.Same (Run.callClosure execute c vs) (Run.callClosure execute' c' vs) := by
  obtain ⟨Γ, hchain, hf, hinit⟩ := hc.site
  obtain ⟨Γ₁, hp, hb⟩ := hf.body
  have body : S.InStep X t True (fun _ _ _ => True) _ _ :=
    InStep.executeBlock L hx (FramesAdded.arguments L hchain hp hlen hvs) (fun _ => trivial) hb
  unfold Run.callClosure
  refine body.catchReturn.bind L fun u v v' hu hv => ?_
  rw [← hc.initializer]
  cases hi : c.isInitializer with
  | true =>
      have own : S.InStep X u r _ (Run.lookUpOwn c.chain 0 Keyword.thisWord.text)
          (Run.lookUpOwn c'.chain 0 Keyword.thisWord.text) :=
        InStep.lookUpOwn L fun m m' hm => L.ownThis hm.frames (L.chain_mono hu.world hchain) (hinit hi)
      exact own.mono fun _ _ _ _ h => h.1
  | false =>
      cases hv with
      | none => exact .pure L ⟨rfl, trivial⟩
      | some hs => exact .pure L hs

theorem InStep.bindMethod (L : S.Lawful) (id : InstanceId) {c c' : Closure} (hc : S.MethodMatch t.world c c')
    (hid : id < t.extent.instances) :
    S.InStep X t r (fun u b b' => S.ClosureMatch u.world b b' ∧ b.arity = c.arity) (Run.bindMethod id c)
      (Run.bindMethod id c') := by
  obtain ⟨Γ, b, hchain, hf⟩ := hc.site
  have frame : S.FramesAdded t (S.thisSite b Γ) c.chain c'.chain
      (.singleton Keyword.thisWord.text (.value (.instanceRef id)))
      (.singleton Keyword.thisWord.text (.value (.instanceRef id))) := by
    refine ⟨fun F F' hF => L.enterThis b id hF hchain, fun name v hv => ?_⟩
    rw [Table.find?_singleton] at hv
    split at hv
    · cases hv
      exact hid
    · cases hv
  unfold Run.bindMethod
  refine (InStep.newFrame L frame).bind L fun u i i' hu h => ?_
  exact .pure L ⟨⟨⟨_, h, hf, fun _ => L.initial_this b Γ⟩, hc.initializer⟩, rfl⟩

theorem InStep.newClosure (L : S.Lawful) {c c' : Closure} (hc : S.ClosureMatch t.world c c') :
    S.InStep X t r S.Same (Run.newClosure c) (Run.newClosure c') := by
  intro m m' hm
  obtain ⟨hsize, hsize'⟩ := hm.closures_size
  refine .ok (t.later_addClosure L) (hm.addClosure L hc) ⟨?_, ?_⟩
  · show Value.closureRef m.heap.closures.size = Value.closureRef m'.heap.closures.size
    rw [hsize, hsize']
  · show m.heap.closures.size < t.extent.closures + 1
    omega

theorem InStep.onMachine {A : S.Stage → α → β → Prop} {x : Machine → Run α} {x' : Machine → Run β}
    (h : ∀ m m', S.Store t m m' → S.Outcome X t r A (x m m) (x' m' m')) :
    S.InStep X t r A (MonadState.get >>= x) (MonadState.get >>= x') := h

/-! ## Instances -/

theorem InStep.instanceAt (L : S.Lawful) {id : InstanceId} (hid : id < t.extent.instances) :
    S.InStep X t r (fun u i i' => i = i' ∧ i.classId < u.extent.classes ∧
      ∀ name v, i.fields.find? name = some v → u.extent.Holds v) (Run.instanceAt id) (Run.instanceAt id) := by
  intro m m' hm
  have hbound : id < m.heap.instances.size := by
    rw [hm.instances_size]
    exact hid
  have hi : m.heap.instances[id]? = some m.heap.instances[id] := Array.getElem?_eq_getElem hbound
  have hi' : m'.heap.instances[id]? = some m.heap.instances[id] := by rw [← hm.instances, hi]
  rw [Run.instanceAt_of_some hi, Run.instanceAt_of_some hi']
  exact .ok (.refl L t) hm ⟨rfl, hm.fields _ _ hi⟩

theorem Outcome.instantiate (L : S.Lawful) (hx : S.Executes X execute execute') {id : ClassId} {vs : List Value}
    {m m' : Machine} (hm : S.Store t m m') (hid : id < t.extent.classes)
    (hlen : m.heap.arity? (.classRef id) = some vs.length) (hvs : ∀ v ∈ vs, t.extent.Holds v) :
    S.Outcome X t r S.Same (Run.instantiate execute id vs m) (Run.instantiate execute' id vs m') := by
  have hs := hm.addInstance L hid
  have later := t.later_addInstance L
  have hsize : m.heap.instances.size = m'.heap.instances.size := by rw [hm.instances]
  have held : t.addInstance.extent.Holds (.instanceRef m.heap.instances.size) := by
    have := hm.instances_size
    show m.heap.instances.size < t.extent.instances + 1
    omega
  have same : ∀ h : Heap, (h.addInstance id).2.initializer? id = h.initializer? id := by
    intro h
    have classes : (h.addInstance id).2.classes = h.classes := rfl
    exact Heap.method?_congr classes id _
  unfold Run.instantiate
  rw [Run.bind_of_ok _ (Run.newInstance_eq id m), Run.bind_of_ok _ (Run.newInstance_eq id m'), Run.get_bind,
    Run.get_bind, same, same, ← hsize]
  have hi := hm.method? id FunctionDecl.initializerName
  have arity : vs.length = (m.heap.method? id FunctionDecl.initializerName).elim 0 Closure.arity :=
    (Option.some.inj hlen).symm
  unfold Heap.initializer?
  generalize m.heap.method? id FunctionDecl.initializerName = c at hi arity
  generalize m'.heap.method? id FunctionDecl.initializerName = c' at hi
  refine Outcome.earlier L later ?_
  cases hi with
  | none => exact .ok (.refl L _) hs ⟨rfl, held⟩
  | @some c c' hc =>
      have made : S.InStep X t.addInstance r S.Same
          (do
            let bound ← Run.bindMethod m.heap.instances.size c
            let _ ← Run.callClosure execute bound vs
            return .instanceRef m.heap.instances.size)
          (do
            let bound ← Run.bindMethod m.heap.instances.size c'
            let _ ← Run.callClosure execute' bound vs
            return .instanceRef m.heap.instances.size) := by
        refine (InStep.bindMethod L _ (hc.mono L later.world) held).bind L fun u b b' hu hb => ?_
        have called := InStep.callClosure (r := r) L hx hb.1 (Eq.trans arity hb.2.symm) fun v hv =>
          ((hvs v hv).mono later.extent).mono hu.extent
        refine called.bind L fun w _ _ hw _ => ?_
        exact .pure L ⟨rfl, (held.mono hu.extent).mono hw.extent⟩
      exact made _ _ hs

/-! ## Properties -/

theorem InStep.boundMethod (L : S.Lawful) {n n' : Name} (hn : S.Label Γ n n') (k : ClassId) {id : InstanceId}
    (hid : id < t.extent.instances) :
    S.InStep X t r S.Same (Run.boundMethod k id n) (Run.boundMethod k id n') := by
  unfold Run.boundMethod
  refine .onMachine fun m m' hm => ?_
  have hmethod := hm.method? k n.text
  rw [← hn.text]
  generalize m.heap.method? k n.text = c at hmethod
  generalize m'.heap.method? k n.text = c' at hmethod
  cases hmethod with
  | none => exact InStep.failAt L _ hn m m' hm
  | some hc =>
      have made : S.InStep X t r S.Same (do Run.newClosure (← Run.bindMethod id _))
          (do Run.newClosure (← Run.bindMethod id _)) :=
        (InStep.bindMethod L id hc hid).bind L fun u b b' _ hb => InStep.newClosure L hb.1
      exact made m m' hm

theorem InStep.getProperty (L : S.Lawful) {n n' : Name} (hn : S.Label Γ n n') {v : Value}
    (hv : t.extent.Holds v) : S.InStep X t r S.Same (Run.getProperty v n) (Run.getProperty v n') := by
  cases v with
  | plain l => exact .failAt L _ hn
  | native f => exact .failAt L _ hn
  | closureRef id => exact .failAt L _ hn
  | classRef id => exact .failAt L _ hn
  | instanceRef id =>
      unfold Run.getProperty
      dsimp only
      refine (InStep.instanceAt L hv).bind L fun u i i' hu hi => ?_
      obtain ⟨rfl, _, hfields⟩ := hi
      have hfield : i.fields.find? n.text = i.fields.find? n'.text := by rw [hn.text]
      rw [← hfield]
      cases hfound : i.fields.find? n.text with
      | some w => exact .pure L ⟨rfl, hfields _ _ hfound⟩
      | none => exact InStep.boundMethod L hn i.classId (Nat.lt_of_lt_of_le hv hu.extent.instances)

theorem InStep.getSuper (L : S.Lawful) {n n' : Name} (hn : S.Label Γ n n') {ref ref' : Binding}
    (h : S.superRef Γ ref ref') (ht : t.At Γ) :
    S.InStep X t r S.Same (Run.getSuper n ref) (Run.getSuper n' ref') := by
  rcases L.superRef_cases h with ⟨rfl, rfl, hfault⟩ | ⟨d, d', rfl, rfl⟩
  · exact .halt L (.fault hfault)
  · unfold Run.getSuper
    dsimp only
    refine .onMachine fun m m' hm => ?_
    rw [hm.left, hm.right]
    have super : S.InStep X t r _ (Run.lookUpOwn t.left d Keyword.superWord.text)
        (Run.lookUpOwn t.right d' Keyword.superWord.text) :=
      InStep.lookUpOwn L fun m m' hm => (L.ownSuper hm.frames ht h).1
    refine super.bind L (fun u v v' hu hv => ?_) m m' hm
    obtain ⟨⟨rfl, hvheld⟩, hclass⟩ := hv
    have this : S.InStep X u r _ (Run.lookUpOwn t.left ((d : Int) - 1) Keyword.thisWord.text)
        (Run.lookUpOwn t.right ((d' : Int) - 1) Keyword.thisWord.text) :=
      InStep.lookUpOwn L fun m m' hm => (L.ownSuper hm.frames (L.chain_mono hu.world ht) h).2
    refine this.bind L fun w o o' hw ho => ?_
    obtain ⟨⟨rfl, hoheld⟩, hinstance⟩ := ho
    have broken : ∀ f : Fault, S.fault → S.InStep X w r S.Same (throw (.fault f)) (throw (.fault f)) :=
      fun f hfault => .halt L (.fault hfault)
    cases v with
    | classRef k =>
        cases o with
        | instanceRef id => exact InStep.boundMethod L hn k hoheld
        | plain _ | native _ | closureRef _ | classRef _ =>
            rcases hinstance with hfault | ⟨id, ⟨⟩⟩
            exact broken _ hfault
    | plain _ | native _ | closureRef _ | instanceRef _ =>
        rcases hclass with hfault | ⟨id, ⟨⟩⟩
        exact broken _ hfault

/-! ## Calls -/

theorem InStep.readClock (L : S.Lawful) : S.InStep X t r S.Same Run.readClock Run.readClock := by
  intro m m' hm
  refine .ok (.refl L t) hm.tick ⟨?_, trivial⟩
  rw [hm.clock, hm.ticks]

theorem InStep.call (L : S.Lawful) (hx : S.Executes X execute execute') {l l' : Int} (hl : S.line Γ l l')
    {f : Value} (hf : t.extent.Holds f) {vs : List Value} (hvs : ∀ v ∈ vs, t.extent.Holds v) :
    S.InStep X t r S.Same (Run.call execute f vs l) (Run.call execute' f vs l') := by
  unfold Run.call
  refine .onMachine fun m m' hm => ?_
  rw [← hm.arity? L f]
  cases ha : m.heap.arity? f with
  | none => exact InStep.fail L .notCallable _ hl m m' hm
  | some arity =>
      dsimp only
      by_cases hlen : vs.length = arity
      · rw [if_neg (not_not_intro hlen), if_neg (not_not_intro hlen)]
        subst hlen
        cases f with
        | plain v => cases ha
        | instanceRef id => cases ha
        | classRef id => exact Outcome.instantiate L hx hm hf ha hvs
        | native n =>
            cases n with
            | clock => exact InStep.readClock L m m' hm
            | idle name id => exact InStep.pure L ⟨rfl, trivial⟩ m m' hm
        | closureRef id =>
            have hc := hm.closures id
            unfold Heap.arity? at ha
            obtain ⟨c, hid, harity⟩ := Option.map_eq_some_iff.1 ha
            rw [hid] at hc
            generalize hid' : m'.heap.closures[id]? = found at hc
            cases hc with
            | some hcc =>
                have called := InStep.callClosure (r := r) L hx hcc harity.symm hvs m m' hm
                show S.Outcome X t r S.Same
                  ((Run.closureAt id >>= fun c => Run.callClosure execute c vs) m)
                  ((Run.closureAt id >>= fun c => Run.callClosure execute' c vs) m')
                rw [Run.bind_of_ok _ (Run.closureAt_of_some hid), Run.bind_of_ok _ (Run.closureAt_of_some hid')]
                exact called
      · rw [if_pos hlen, if_pos hlen]
        exact InStep.fail L (.wrongArity arity vs.length) _ hl m m' hm

/-! ## Classes -/

theorem InStep.superclassOf (L : S.Lawful) {c c' : Option (Name × Binding)} (h : Option.Rel (S.read Γ) c c')
    (ht : t.At Γ) :
    S.InStep X t r (fun u s s' => s = s' ∧ s.isSome = c.isSome ∧ ∀ id, s = some id → id < u.extent.classes)
      (Run.superclassOf c) (Run.superclassOf c') := by
  cases h with
  | none => exact .pure L ⟨rfl, rfl, fun id hid => by cases hid⟩
  | @some p p' h =>
      obtain ⟨n, ref⟩ := p
      obtain ⟨n', ref'⟩ := p'
      unfold Run.superclassOf
      dsimp only
      refine (InStep.lookUp L ht h).bind L fun u v v' hu hv => ?_
      obtain ⟨rfl, held⟩ := hv
      have failed : S.InStep X u r (fun u s s' => s = s' ∧ s.isSome = true ∧
          ∀ id, s = some id → id < u.extent.classes)
          (Run.failAt .superclassNotClass n) (Run.failAt .superclassNotClass n') :=
        .halt L (.error (L.failure_read h))
      cases v with
      | classRef id =>
          refine .pure L ⟨rfl, rfl, fun k hk => ?_⟩
          cases hk
          exact held
      | plain _ | native _ | closureRef _ | instanceRef _ => exact failed

theorem InStep.methodChain (L : S.Lawful) (s : Option ClassId) (hs : ∀ id, s = some id → id < t.extent.classes)
    (ht : t.At Γ) :
    S.InStep X t r (fun u c c' => S.chain u.world (S.methodsSite s.isSome Γ) c c') (Run.methodChain s)
      (Run.methodChain s) := by
  unfold Run.methodChain
  refine .onMachine fun m m' hm => ?_
  rw [hm.left, hm.right]
  cases s with
  | none => exact .ok (.refl L t) hm ht
  | some id =>
      have frame : S.FramesAdded t (S.superSite Γ) t.left t.right
          (.singleton Keyword.superWord.text (.value (.classRef id)))
          (.singleton Keyword.superWord.text (.value (.classRef id))) := by
        refine ⟨fun F F' hF => L.enterSuper id hF ht, fun name v hv => ?_⟩
        rw [Table.find?_singleton] at hv
        split at hv
        · cases hv
          exact hs id rfl
        · cases hv
      have made : S.InStep X t r (fun u c c' => S.chain u.world (S.superSite Γ) c c')
          (do return (← Run.newFrame _) :: t.left) (do return (← Run.newFrame _) :: t.right) :=
        (InStep.newFrame L frame).bind L fun u i i' _ h => .pure L h
      exact made m m' hm

theorem methodTable_match {w : S.World} {b : Bool} {c c' : Chain} {ms ms' : List (FunctionDecl Binding)}
    (hchain : S.chain w Γ c c') (h : List.Forall₂ (S.Function (S.thisSite b Γ)) ms ms') (name : String) :
    Option.Rel (S.MethodMatch w) ((Run.methodTable c ms).find? name) ((Run.methodTable c' ms').find? name) := by
  unfold Run.methodTable
  refine Table.find?_ofList_rel ?_ name
  rw [List.forall₂_map_left_iff, List.forall₂_map_right_iff]
  refine h.imp fun d d' hd => ⟨hd.name, ⟨Γ, b, hchain, hd⟩, ?_⟩
  unfold FunctionDecl.isInitializer
  rw [hd.name]

theorem InStep.makeClass (L : S.Lawful) {n n' : Name} (hn : n.text = n'.text) {b : Bool}
    {ms ms' : List (FunctionDecl Binding)} (s : Option ClassId)
    (hs : ∀ id, s = some id → id < t.extent.classes)
    (hms : List.Forall₂ (S.Function (S.thisSite b (S.methodsSite s.isSome Γ))) ms ms') (ht : t.At Γ) :
    S.InStep X t r S.Same (Run.makeClass n s ms) (Run.makeClass n' s ms') := by
  unfold Run.makeClass
  refine (InStep.methodChain L s hs ht).bind L fun u c c' hu hchain => ?_
  intro m m' hm
  obtain ⟨hsize, hsize'⟩ := hm.classes_size
  have kept : S.ClassMatch u.world u.extent.classes ⟨n.text, s, Run.methodTable c ms⟩
      ⟨n'.text, s, Run.methodTable c' ms'⟩ :=
    { name := hn, superclass := rfl
      older := fun id hid => Nat.lt_of_lt_of_le (hs id hid) hu.extent.classes
      methods := methodTable_match hchain hms }
  refine .ok (u.later_addClass L) (hm.addClass L kept) ⟨?_, ?_⟩
  · show Value.classRef m.heap.classes.size = Value.classRef m'.heap.classes.size
    rw [hsize, hsize']
  · show m.heap.classes.size < u.extent.classes + 1
    omega

theorem InStep.declareClass (L : S.Lawful) {n n' : Name} (hn : n.text = n'.text)
    {c c' : Option (Name × Binding)} (hc : Option.Rel (S.read Γ) c c') (hd : S.declare Γ n n' Γ₁)
    {ms ms' : List (FunctionDecl Binding)}
    (hms : List.Forall₂ (S.Function (S.thisSite c.isSome (S.methodsSite c.isSome Γ₁))) ms ms') (ht : t.At Γ) :
    S.InStep X t r (fun u _ _ => u.At Γ₁) (Run.declareClass n c ms) (Run.declareClass n' c' ms') := by
  intro m m' hm
  obtain ⟨id, outer, id', outer', hleft, hright, hid, hid'⟩ := L.chain_head hm.frames ht
  rw [Run.declareClass_eq (hm.left.trans hleft) hid, Run.declareClass_eq (hm.right.trans hright) hid']
  refine (InStep.superclassOf L hc ht).bind L (fun u s s' hu hs => ?_) m m' hm
  obtain ⟨rfl, hsome, held⟩ := hs
  have nil : ∀ v, Slot.value Value.nil = .value v → u.extent.Holds v := by
    rintro v ⟨⟩
    trivial
  refine (InStep.define L (hu.at L ht) hd nil).bind L fun v _ _ hv hat => ?_
  rw [← hsome] at hms
  have held' : ∀ id, s = some id → id < v.extent.classes :=
    fun id h => Nat.lt_of_lt_of_le (held id h) hv.extent.classes
  refine (InStep.makeClass L hn s held' hms hat).bind L fun w k k' hw hk => ?_
  obtain ⟨rfl, hkheld⟩ := hk
  have made : ∀ x, Slot.value k = .value x → w.extent.Holds x := by
    rintro x ⟨⟩
    exact hkheld
  exact InStep.define L (hw.at L hat) (L.declare_again hd) made

theorem InStep.declareFunction (L : S.Lawful) {d d' : FunctionDecl Binding} (hd : S.declare Γ d.name d'.name Γ₁)
    (h : S.Function Γ₁ d d') (ht : t.At Γ) :
    S.InStep X t r (fun u _ _ => u.At Γ₁)
      (do let f ← Run.newClosure ⟨d, (← MonadState.get).chain, false⟩
          Run.define d.name.text (.value f))
      (do let f ← Run.newClosure ⟨d', (← MonadState.get).chain, false⟩
          Run.define d'.name.text (.value f)) := by
  intro m m' hm
  obtain ⟨id, outer, id', outer', hleft, hright, _, _⟩ := L.chain_head hm.frames ht
  rw [Run.declareFunction_eq (hm.left.trans hleft), Run.declareFunction_eq (hm.right.trans hright),
    ← hleft, ← hright]
  have nil : ∀ v, Slot.value Value.nil = .value v → t.extent.Holds v := by
    rintro v ⟨⟩
    trivial
  refine (InStep.define L ht hd nil).bind L (fun u _ _ hu hat => ?_) m m' hm
  have captured : S.ClosureMatch u.world ⟨d, t.left, false⟩ ⟨d', t.right, false⟩ := by
    refine ⟨⟨Γ₁, ?_, h, fun hi => by cases hi⟩, rfl⟩
    rw [← hu.left, ← hu.right]
    exact hat
  refine (InStep.newClosure L captured).bind L fun v f f' hv hf => ?_
  obtain ⟨rfl, hheld⟩ := hf
  have made : ∀ x, Slot.value f = .value x → v.extent.Holds x := by
    rintro x ⟨⟩
    exact hheld
  exact InStep.define L (hv.at L hat) (L.declare_again hd) made

end Lockstep

end LoxScript
