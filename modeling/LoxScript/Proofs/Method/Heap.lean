import LoxScript.Proofs.Method.Activation

/-!
# Heaps whose methods know their class

What holds of a heap at all times: every function runs for an activation if it was declared inside a method, and
every class has a frame of its own for its superclass. Objects are only added, and the variables `this` and `super`
never change.
-/

namespace LoxScript

namespace Heap

/-! ## Growing heaps -/

structure Grows (old new : Heap) : Prop where
  size : old.frames.size ≤ new.frames.size
  keyword : ∀ id < old.frames.size, ∀ k : Keyword, new.frames.find? id k.text = old.frames.find? id k.text
  classes : ∀ (k : ClassId) (c : ClassObject), old.classes[k]? = some c → new.classes[k]? = some c
  instances : ∀ (id : InstanceId) (i : Instance), old.instances[id]? = some i →
    ∃ i', new.instances[id]? = some i' ∧ i'.classId = i.classId

/-- Objects that are added stand behind those that there are. -/
theorem getElem?_push_of_some {α : Type} {xs : Array α} {id : Nat} {x : α} (h : xs[id]? = some x) (y : α) :
    (xs.push y)[id]? = some x := by
  have bound : id < xs.size := (Array.getElem?_eq_some_iff.1 h).1
  rw [Array.getElem?_push, if_neg (Nat.ne_of_lt bound), h]

theorem Grows.refl (h : Heap) : h.Grows h :=
  ⟨Nat.le_refl _, fun _ _ _ => rfl, fun _ _ hc => hc, fun _ i hi => ⟨i, hi, rfl⟩⟩

theorem Grows.trans {h h' h'' : Heap} (g : h.Grows h') (g' : h'.Grows h'') : h.Grows h'' := by
  refine ⟨Nat.le_trans g.size g'.size, fun id hid k => ?_, fun k c hc => g'.classes k c (g.classes k c hc), ?_⟩
  · rw [g'.keyword id (Nat.lt_of_lt_of_le hid g.size), g.keyword id hid]
  · intro id i hi
    obtain ⟨i', hi', same⟩ := g.instances id i hi
    obtain ⟨i'', hi'', same'⟩ := g'.instances id i' hi'
    exact ⟨i'', hi'', same'.trans same⟩

/-- Programs bind identifiers only. -/
theorem grows_define (h : Heap) (id : FrameId) {name : Name} (hn : name.IsIdentifier) (slot : Slot) :
    h.Grows (h.define id name.text slot) := by
  refine { Grows.refl h with size := ?_, keyword := fun other _ k => ?_ }
  · exact Nat.le_of_eq (Frames.size_define h.frames id name.text slot).symm
  · show (h.frames.define id name.text slot).find? other k.text = _
    rw [Frames.find?_define, if_neg fun same => hn.ne_keyword k same.2.1.symm]

theorem find?_addFrame (h : Heap) (frame : Frame) (name : String) :
    (h.addFrame frame).2.frames.find? h.frames.size name = frame.find? name := by
  show Frames.find? (h.frames.push frame) h.frames.size name = _
  rw [Frames.find?_push, if_pos rfl]

theorem grows_addFrame (h : Heap) (frame : Frame) : h.Grows (h.addFrame frame).2 := by
  refine { Grows.refl h with size := ?_, keyword := fun id hid k => ?_ }
  · simp [addFrame]
  · show Frames.find? (h.frames.push frame) id k.text = _
    rw [Frames.find?_push, if_neg (Nat.ne_of_lt hid)]

theorem grows_addClosure (h : Heap) (c : Closure) : h.Grows (h.addClosure c).2 :=
  { Grows.refl h with }

theorem grows_addClass (h : Heap) (c : ClassObject) : h.Grows (h.addClass c).2 :=
  { Grows.refl h with classes := fun _ _ hk => getElem?_push_of_some hk c }

theorem grows_addInstance (h : Heap) (k : ClassId) : h.Grows (h.addInstance k).2 :=
  { Grows.refl h with instances := fun _ i hi => ⟨i, getElem?_push_of_some hi _, rfl⟩ }

theorem grows_setField (h : Heap) (id : InstanceId) (name : String) (v : Value) : h.Grows (h.setField id name v) := by
  refine { Grows.refl h with instances := fun other i hi => ?_ }
  show ∃ i', (h.instances.modify id _)[other]? = some i' ∧ _
  rw [Array.getElem?_modify, hi]
  split
  · exact ⟨_, rfl, rfl⟩
  · exact ⟨i, rfl, rfl⟩

theorem Grows.find? {h h' : Heap} (g : h.Grows h') {id : FrameId} {k : Keyword} {slot : Slot}
    (found : h.frames.find? id k.text = some slot) : h'.frames.find? id k.text = some slot := by
  have bound : id < h.frames.size := by
    refine Nat.lt_of_not_le fun beyond => ?_
    rw [Frames.find?, Array.getElem?_eq_none beyond] at found
    cases found
  rw [g.keyword id bound, found]

theorem Descends.mono {h h' : Heap} (g : h.Grows h') {k l : ClassId} (descends : h.Descends k l) : h'.Descends k l := by
  induction descends with
  | refl k => exact .refl k
  | inherits hc hs _ ih => exact .inherits (g.classes _ _ hc) hs ih

theorem Activates.mono {h h' : Heap} (g : h.Grows h') {chain : Chain} {d : Nat} {n : Node Binding} {a : Activation}
    (ha : h.Activates chain d n a) : h'.Activates chain d n a := by
  obtain ⟨frame, drop, bound⟩ := ha.bound
  obtain ⟨i, hi, descends⟩ := ha.descends
  obtain ⟨i', hi', same⟩ := g.instances _ _ hi
  refine ⟨⟨g.classes _ _ ha.made.1, ha.made.2⟩, ha.code, ⟨frame, drop, g.find? bound⟩, i', hi', ?_⟩
  rw [same]
  exact descends.mono g

/-! ## Code and the activations it runs for -/

/-- Code inside a class runs for an activation of one of its methods. -/
def Serves (h : Heap) (Γ : Context) (chain : Chain) (n : Node Binding) : Prop :=
  Γ.classContext ≠ .outside → ∃ d a, Γ.Own d a.owner.superclass.isSome ∧ h.Activates chain d n a

namespace Serves

variable {h : Heap} {Γ : Context} {chain : Chain} {n : Node Binding}

theorem mono {h' : Heap} (g : h.Grows h') (hs : h.Serves Γ chain n) : h'.Serves Γ chain n := by
  intro inside
  obtain ⟨d, a, own, activates⟩ := hs inside
  exact ⟨d, a, own, activates.mono g⟩

theorem part (hs : h.Serves Γ chain n) {n' : Node Binding} (hn : n' ∈ n.parts) : h.Serves Γ chain n' := by
  intro inside
  obtain ⟨d, a, own, activates⟩ := hs inside
  exact ⟨d, a, own, activates.part hn⟩

theorem push (hs : h.Serves Γ chain n) (frame : FrameId) : h.Serves (Γ.push .empty) (frame :: chain) n := by
  intro inside
  obtain ⟨d, a, own, activates⟩ := hs inside
  exact ⟨d + 1, a, own.push, activates.push frame⟩

theorem mark (hs : h.Serves Γ chain n) {name : Name} (hn : name.IsIdentifier) (passed : Bool) :
    h.Serves (Γ.mark name.text passed) chain n := by
  intro inside
  rw [Context.classContext_mark] at inside
  obtain ⟨d, a, own, activates⟩ := hs inside
  exact ⟨d, a, own.mark hn passed, activates⟩

theorem markAll (hs : h.Serves Γ chain n) {names : List Name} (hn : Γ.MayDeclareAll names) :
    h.Serves (Γ.markAll names) chain n := by
  induction names generalizing Γ with
  | nil => exact hs
  | cons name names ih => exact ih (hs.mark hn.1.identifier true) hn.2

theorem after (hs : h.Serves Γ chain n) {P : Context → Node Binding → Prop} {s : Stmt Binding}
    (ws : s.Scoped P Γ) : h.Serves (Γ.after s) chain n := by
  unfold Context.after
  cases declared : s.declared? with
  | none => exact hs
  | some name => exact hs.mark (ws.mayDeclare declared).identifier true

theorem inFunction (hs : h.Serves Γ chain n) (frame : FrameId) (kind : FunctionContext) :
    h.Serves (Γ.inFunction kind) (frame :: chain) n := by
  intro inside
  obtain ⟨d, a, own, activates⟩ := hs inside
  exact ⟨d + 1, a, own.inFunction kind, activates.push frame⟩

end Serves

/-- A function whose body runs for an activation if the function was declared inside a method. -/
def Sited (h : Heap) (c : Closure) : Prop :=
  ∃ Γ kind, c.decl.Scoped Unlabelled kind Γ ∧ ∀ s ∈ c.decl.body, h.Serves Γ c.chain (.stmt s)

/-- A method that was declared in the scopes of its class, in an environment that begins with the frame for the
superclass if there is one. -/
structure Fitting (h : Heap) (owner : ClassObject) (method : Closure) : Prop where
  code : ∃ Γ kind, Γ.Own 0 owner.superclass.isSome ∧ method.decl.Scoped Unlabelled kind Γ
  chain : ∃ head outer, method.chain = head :: outer ∧ head < h.frames.size ∧
    h.frames.find? head Keyword.superWord.text = owner.superclass.map fun k => .value (.classRef k)

/-- An environment whose innermost frame does not bind `super`. Statements run in such environments only. -/
def IsOrdinary (h : Heap) (chain : Chain) : Prop :=
  ∃ head outer, chain = head :: outer ∧ head < h.frames.size ∧ h.frames.find? head Keyword.superWord.text = none

/-- No method was declared in an environment that begins with the frame `id`. -/
def Unused (h : Heap) (id : FrameId) : Prop :=
  ∀ k c method, h.Made k c method → method.chain.head? ≠ some id

/-- Every function and every class was made by a well-scoped program. -/
structure Linked (h : Heap) : Prop where
  closures : ∀ (id : ClosureId) (c : Closure), h.closures[id]? = some c → h.Sited c
  methods : ∀ k c method, h.Made k c method → h.Fitting c method
  own : ∀ k c method k' c' method', h.Made k c method → h.Made k' c' method' →
    method.chain.head? = method'.chain.head? → c.superclass.isSome → k = k'

theorem Sited.mono {h h' : Heap} (g : h.Grows h') {c : Closure} (hc : h.Sited c) : h'.Sited c := by
  obtain ⟨Γ, kind, ws, serves⟩ := hc
  exact ⟨Γ, kind, ws, fun s hs => (serves s hs).mono g⟩

theorem IsOrdinary.mono {h h' : Heap} (g : h.Grows h') {chain : Chain} (ordinary : h.IsOrdinary chain) :
    h'.IsOrdinary chain := by
  obtain ⟨head, outer, same, bound, unbound⟩ := ordinary
  refine ⟨head, outer, same, Nat.lt_of_lt_of_le bound g.size, ?_⟩
  rw [g.keyword head bound, unbound]

theorem Fitting.mono {h h' : Heap} (g : h.Grows h') {c : ClassObject} {method : Closure} (hm : h.Fitting c method) :
    h'.Fitting c method := by
  obtain ⟨head, outer, chain, bound, super⟩ := hm.chain
  refine ⟨hm.code, head, outer, chain, Nat.lt_of_lt_of_le bound g.size, ?_⟩
  rw [g.keyword head bound, super]

namespace Linked

variable {h : Heap}

/-! ### What becomes of linked heaps -/

theorem start : Heap.start.Linked := by
  refine ⟨fun id c hc => ?_, fun k c method made => ?_, fun k c method k' c' method' made => ?_⟩
  · simp [Heap.start] at hc
  · have := made.1
    simp [Heap.start] at this
  · have := made.1
    simp [Heap.start] at this

/-- Heaps that have the same functions and classes. -/
theorem of_grows (hl : h.Linked) {h' : Heap} (g : h.Grows h') (closures : h'.closures = h.closures)
    (classes : h'.classes = h.classes) : h'.Linked := by
  have same : ∀ {k c method}, h'.Made k c method → h.Made k c method := fun made => ⟨classes ▸ made.1, made.2⟩
  refine ⟨fun id c hc => ?_, fun k c method made => ?_, fun k c method k' c' method' made made' => ?_⟩
  · rw [closures] at hc
    exact (hl.closures id c hc).mono g
  · exact (hl.methods k c method (same made)).mono g
  · exact hl.own k c method k' c' method' (same made) (same made')

theorem define (hl : h.Linked) (id : FrameId) {name : Name} (hn : name.IsIdentifier) (slot : Slot) :
    (h.define id name.text slot).Linked :=
  hl.of_grows (h.grows_define id hn slot) rfl rfl

theorem addFrame (hl : h.Linked) (frame : Frame) : (h.addFrame frame).2.Linked :=
  hl.of_grows (h.grows_addFrame frame) rfl rfl

theorem addInstance (hl : h.Linked) (k : ClassId) : (h.addInstance k).2.Linked :=
  hl.of_grows (h.grows_addInstance k) rfl rfl

theorem setField (hl : h.Linked) (id : InstanceId) (name : String) (v : Value) : (h.setField id name v).Linked :=
  hl.of_grows (h.grows_setField id name v) rfl rfl

theorem addClosure (hl : h.Linked) {c : Closure} (hc : h.Sited c) : (h.addClosure c).2.Linked := by
  have g := h.grows_addClosure c
  refine ⟨fun id c' hc' => ?_, fun k owner method made => ?_, hl.own⟩
  · have pushed : (h.closures.push c)[id]? = some c' := hc'
    rw [Array.getElem?_push] at pushed
    split at pushed
    · cases pushed
      exact hc.mono g
    · exact (hl.closures id c' pushed).mono g
  · exact (hl.methods k owner method made).mono g

/-- A frame that is added is not used by any method yet. -/
theorem unused_addFrame (hl : h.Linked) (frame : Frame) : (h.addFrame frame).2.Unused h.frames.size := by
  intro k c method made same
  obtain ⟨head, outer, chain, bound, _⟩ := (hl.methods k c method made).chain
  rw [chain] at same
  obtain rfl := Option.some.inj same
  exact Nat.lt_irrefl _ bound

/-- The methods of a class share the frame for its superclass with no other class. -/
theorem addClass (hl : h.Linked) {c : ClassObject}
    (fitting : ∀ name method, c.methods.find? name = some method → h.Fitting c method) {head : FrameId}
    (heads : ∀ name method, c.methods.find? name = some method → method.chain.head? = some head)
    (unused : c.superclass.isSome → h.Unused head) : (h.addClass c).2.Linked := by
  have g := h.grows_addClass c
  have made_cases : ∀ {k owner method}, (h.addClass c).2.Made k owner method →
      (k = h.classes.size ∧ owner = c ∧ ∃ name, c.methods.find? name = some method) ∨ h.Made k owner method := by
    rintro k owner method ⟨hk, named⟩
    have pushed : (h.classes.push c)[k]? = some owner := hk
    rw [Array.getElem?_push] at pushed
    split at pushed
    · next hid =>
        cases pushed
        exact .inl ⟨hid, rfl, named⟩
    · exact .inr ⟨pushed, named⟩
  -- A frame for a superclass binds `super`, and so it heads no method of a class without a superclass.
  have inherits : ∀ {owner owner' : ClassObject} {method method' : Closure}, h.Fitting owner method →
      h.Fitting owner' method' → method.chain.head? = method'.chain.head? → owner.superclass.isSome →
      owner'.superclass.isSome := by
    intro owner owner' method method' hm hm' same isSome
    obtain ⟨head, outer, chain, _, super⟩ := hm.chain
    obtain ⟨head', outer', chain', _, super'⟩ := hm'.chain
    rw [chain, chain'] at same
    obtain rfl := Option.some.inj same
    have both := congrArg Option.isSome (super.symm.trans super')
    rw [Option.isSome_map, Option.isSome_map] at both
    rw [← both]
    exact isSome
  refine ⟨fun id d hd => (hl.closures id d hd).mono g, fun k owner method made => ?_,
    fun k owner method k' owner' method' made made' same isSome => ?_⟩
  · rcases made_cases made with ⟨_, rfl, name, named⟩ | old
    · exact (fitting name method named).mono g
    · exact (hl.methods k owner method old).mono g
  · rcases made_cases made with ⟨rfl, rfl, name, named⟩ | old
    · rcases made_cases made' with ⟨rfl, _⟩ | old'
      · rfl
      · have first := same.symm.trans (heads name method named)
        exact absurd first (unused isSome k' owner' method' old')
    · rcases made_cases made' with ⟨rfl, rfl, name, named⟩ | old'
      · have isSome' := inherits (hl.methods k owner method old) (fitting name method' named) same isSome
        have first := same.trans (heads name method' named)
        exact absurd first (unused isSome' k owner method old)
      · exact hl.own k owner method k' owner' method' old old' same isSome

/-! ### What is known of activations -/

/-- A method that is bound to an instance of its class works for this instance. -/
theorem sited_bound (hl : h.Linked) {k : ClassId} {c : ClassObject} {method : Closure} (made : h.Made k c method)
    {object : InstanceId} {i : Instance} (hi : h.instances[object]? = some i) (descends : h.Descends i.classId k)
    {frame : FrameId} (bound : h.frames.find? frame Keyword.thisWord.text = some (.value (.instanceRef object))) :
    h.Sited { method with chain := frame :: method.chain } := by
  obtain ⟨Γ, kind, own, ws⟩ := (hl.methods k c method made).code
  refine ⟨Γ, kind, ws, fun s hs _ => ⟨0, ⟨k, c, method, object⟩, own, ?_⟩⟩
  exact ⟨made, .body hs, ⟨frame, rfl, bound⟩, i, hi, descends⟩

variable {chain : Chain} {d : Nat} {n : Node Binding} {a : Activation}

/-- `super` is the superclass that is recorded in the class of the activation. -/
theorem slotAt_super (hl : h.Linked) (ha : h.Activates chain d n a) {superclass : ClassId}
    (hs : a.owner.superclass = some superclass) {distance : Int} (hd : distance.toNat = d + 1) :
    h.frames.slotAt chain distance Keyword.superWord.text = .ok (.value (.classRef superclass)) := by
  obtain ⟨frame, drop, _⟩ := ha.bound
  obtain ⟨head, outer, methodChain, _, super⟩ := (hl.methods _ _ _ ha.made).chain
  rw [hs] at super
  refine Frames.slotAt_of_find? ?_ super
  rw [hd, ← List.head?_drop, ← List.tail_drop, drop, List.tail_cons, methodChain, List.head?_cons]

/-- No two classes are at work in the same environment. -/
theorem classId_unique (hl : h.Linked) {n' : Node Binding} {b : Activation} (ha : h.Activates chain d n a)
    (hb : h.Activates chain d n' b) : b.classId = a.classId := by
  obtain ⟨frame, drop, _⟩ := ha.bound
  obtain ⟨frame', drop', _⟩ := hb.bound
  obtain ⟨rfl, chains⟩ := List.cons.inj (drop.symm.trans drop')
  have heads : a.method.chain.head? = b.method.chain.head? := by rw [chains]
  cases hasSuper : a.owner.superclass with
  | some _ => exact (hl.own _ _ _ _ _ _ ha.made hb.made heads (by rw [hasSuper]; rfl)).symm
  | none =>
      cases hasSuper' : b.owner.superclass with
      | some _ => exact hl.own _ _ _ _ _ _ hb.made ha.made heads.symm (by rw [hasSuper']; rfl)
      | none =>
          obtain ⟨i, hi, descends⟩ := ha.descends
          obtain ⟨i', hi', descends'⟩ := hb.descends
          rw [ha.object_unique hb] at hi'
          obtain rfl := Option.some.inj (hi.symm.trans hi')
          exact descends'.root_unique descends hb.made.1 ha.made.1 hasSuper' hasSuper

end Linked

end Heap

end LoxScript
