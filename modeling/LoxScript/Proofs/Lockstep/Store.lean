import LoxScript.Proofs.Lockstep.Combine

/-!
# Changing two machines in lockstep

What each operation on frames and objects does to machines that correspond. Objects are only added, and what is
known of the frames only grows, so nothing that corresponded before ceases to.
-/

namespace LoxScript

namespace Table

variable {α β : Type} {R : α → β → Prop}

/-- Lists of entries with the same names in the same order, added to tables that correspond. -/
theorem find?_foldl_insert_rel {entries : List (String × α)} {entries' : List (String × β)}
    (h : List.Forall₂ (fun p q => p.1 = q.1 ∧ R p.2 q.2) entries entries') {t : Table α} {t' : Table β}
    (ht : ∀ name, Option.Rel R (t.find? name) (t'.find? name)) (name : String) :
    Option.Rel R ((entries.foldl (fun t (name, a) => t.insert name a) t).find? name)
      ((entries'.foldl (fun t (name, a) => t.insert name a) t').find? name) := by
  induction h generalizing t t' with
  | nil => exact ht name
  | @cons p q _ _ hpq _ ih =>
      obtain ⟨key, a⟩ := p
      obtain ⟨key', b⟩ := q
      obtain ⟨hkey, hab⟩ := hpq
      cases hkey
      refine ih fun other => ?_
      rw [find?_insert, find?_insert]
      by_cases same : other = key
      · rw [if_pos same, if_pos same]
        exact .some hab
      · rw [if_neg same, if_neg same]
        exact ht other

theorem find?_ofList_rel {entries : List (String × α)} {entries' : List (String × β)}
    (h : List.Forall₂ (fun p q => p.1 = q.1 ∧ R p.2 q.2) entries entries') (name : String) :
    Option.Rel R ((ofList entries).find? name) ((ofList entries').find? name) :=
  find?_foldl_insert_rel h (fun _ => .none) name

end Table

namespace Lockstep

variable {S : Lockstep} {α β : Type} {t u : S.Stage} {r : Prop}

theorem relOption_mono {R R' : α → β → Prop} {a : Option α} {b : Option β} (h : Option.Rel R a b)
    (hR : ∀ x y, R x y → R' x y) : Option.Rel R' a b := by
  cases h with
  | none => exact .none
  | some hxy => exact .some (hR _ _ hxy)

/-! ## Objects that correspond -/

theorem ClosureMatch.mono (L : S.Lawful) {w w' : S.World} {c c' : Closure} (h : S.ClosureMatch w c c')
    (hw : S.le w w') : S.ClosureMatch w' c c' := by
  obtain ⟨Γ, hchain, hf, hi⟩ := h.site
  exact ⟨⟨Γ, L.chain_mono hw hchain, hf, hi⟩, h.initializer⟩

theorem MethodMatch.mono (L : S.Lawful) {w w' : S.World} {c c' : Closure} (h : S.MethodMatch w c c')
    (hw : S.le w w') : S.MethodMatch w' c c' := by
  obtain ⟨Γ, b, hchain, hf⟩ := h.site
  exact ⟨⟨Γ, b, L.chain_mono hw hchain, hf⟩, h.initializer⟩

theorem ClassMatch.mono (L : S.Lawful) {w w' : S.World} {id : ClassId} {k k' : ClassObject}
    (h : S.ClassMatch w id k k') (hw : S.le w w') : S.ClassMatch w' id k k' :=
  { h with methods := fun name => relOption_mono (h.methods name) fun _ _ hm => hm.mono L hw }

def SlotsHeld (x : Extent) (frames : Frames) : Prop :=
  ∀ id name v, frames.find? id name = some (.value v) → x.Holds v

theorem SlotsHeld.mono {x y : Extent} {frames : Frames} (h : SlotsHeld x frames) (hxy : x.Le y) :
    SlotsHeld y frames :=
  fun id name v hv => (h id name v hv).mono hxy

theorem SlotsHeld.define {x : Extent} {frames : Frames} (h : SlotsHeld x frames) (id : FrameId) (name : String)
    {slot : Slot} (hslot : ∀ v, slot = .value v → x.Holds v) : SlotsHeld x (frames.define id name slot) := by
  intro other name' v hv
  rw [Frames.find?_define] at hv
  split at hv
  · cases hv
    exact hslot v rfl
  · exact h other name' v hv

theorem SlotsHeld.push {x : Extent} {frames : Frames} (h : SlotsHeld x frames) {frame : Frame}
    (hframe : ∀ name v, frame.find? name = some (.value v) → x.Holds v) : SlotsHeld x (frames.push frame) := by
  intro id name v hv
  rw [Frames.find?_push] at hv
  split at hv
  · exact hframe name v hv
  · exact h id name v hv

/-- Both machines keep their objects while the frames change. -/
theorem Store.reframe (L : S.Lawful) {m m' : Machine} (hm : S.Store t m m') {w : S.World} {F F' : Frames}
    (hw : S.le t.world w) (hF : S.frames w F F') (held : SlotsHeld t.extent F) :
    S.Store { t with world := w } { m with heap := { m.heap with frames := F } }
      { m' with heap := { m'.heap with frames := F' } } :=
  { left := hm.left, right := hm.right, extent := hm.extent, extent' := hm.extent'
    frames := hF
    slots := held
    closures := fun id => relOption_mono (hm.closures id) fun _ _ h => h.mono L hw
    classes := fun id => relOption_mono (hm.classes id) fun _ _ h => h.mono L hw
    instances := hm.instances, fields := hm.fields
    printed := hm.printed, clock := hm.clock, ticks := hm.ticks }

theorem Stage.Later.atWorld (t : S.Stage) {w : S.World} (hw : S.le t.world w) :
    t.Later { t with world := w } :=
  ⟨hw, .refl _, rfl, rfl⟩

/-- The number of closures is the same in both machines. -/
theorem Store.closures_size {m m' : Machine} (hm : S.Store t m m') :
    m.heap.closures.size = t.extent.closures ∧ m'.heap.closures.size = t.extent.closures :=
  ⟨congrArg Extent.closures hm.extent, congrArg Extent.closures hm.extent'⟩

theorem Store.classes_size {m m' : Machine} (hm : S.Store t m m') :
    m.heap.classes.size = t.extent.classes ∧ m'.heap.classes.size = t.extent.classes :=
  ⟨congrArg Extent.classes hm.extent, congrArg Extent.classes hm.extent'⟩

theorem Store.instances_size {m m' : Machine} (hm : S.Store t m m') :
    m.heap.instances.size = t.extent.instances :=
  congrArg Extent.instances hm.extent

def Stage.addClosure (t : S.Stage) : S.Stage :=
  { t with extent := { t.extent with closures := t.extent.closures + 1 } }

def Stage.addClass (t : S.Stage) : S.Stage :=
  { t with extent := { t.extent with classes := t.extent.classes + 1 } }

def Stage.addInstance (t : S.Stage) : S.Stage :=
  { t with extent := { t.extent with instances := t.extent.instances + 1 } }

theorem Stage.later_addClosure (L : S.Lawful) (t : S.Stage) : t.Later t.addClosure :=
  ⟨L.le_refl _, ⟨Nat.le_succ _, Nat.le_refl _, Nat.le_refl _⟩, rfl, rfl⟩

theorem Stage.later_addClass (L : S.Lawful) (t : S.Stage) : t.Later t.addClass :=
  ⟨L.le_refl _, ⟨Nat.le_refl _, Nat.le_succ _, Nat.le_refl _⟩, rfl, rfl⟩

theorem Stage.later_addInstance (L : S.Lawful) (t : S.Stage) : t.Later t.addInstance :=
  ⟨L.le_refl _, ⟨Nat.le_refl _, Nat.le_refl _, Nat.le_succ _⟩, rfl, rfl⟩

theorem relOption_push {R : Nat → α → β → Prop} {as : Array α} {bs : Array β} {a : α} {b : β}
    (h : ∀ id : Nat, Option.Rel (R id) as[id]? bs[id]?) (hsize : as.size = bs.size) (hab : R as.size a b)
    (id : Nat) : Option.Rel (R id) (as.push a)[id]? (bs.push b)[id]? := by
  rw [Array.getElem?_push, Array.getElem?_push, ← hsize]
  by_cases hid : id = as.size
  · subst hid
    rw [if_pos rfl, if_pos rfl]
    exact .some hab
  · rw [if_neg hid, if_neg hid]
    exact h id

theorem Store.addClosure (L : S.Lawful) {m m' : Machine} (hm : S.Store t m m') {c c' : Closure}
    (hc : S.ClosureMatch t.world c c') :
    S.Store t.addClosure { m with heap := (m.heap.addClosure c).2 }
      { m' with heap := (m'.heap.addClosure c').2 } := by
  have later := t.later_addClosure L
  obtain ⟨hsize, hsize'⟩ := hm.closures_size
  have hx := hm.extent
  have hx' := hm.extent'
  refine
    { left := hm.left, right := hm.right, extent := ?_, extent' := ?_, frames := hm.frames
      slots := SlotsHeld.mono hm.slots later.extent
      closures := relOption_push hm.closures (hsize.trans hsize'.symm) hc
      classes := hm.classes, instances := hm.instances
      fields := fun id i hi => ⟨(hm.fields id i hi).1, fun n v hv => ((hm.fields id i hi).2 n v hv).mono later.extent⟩
      printed := hm.printed, clock := hm.clock, ticks := hm.ticks }
  · simp only [Heap.extent, Heap.addClosure, Array.size_push, Stage.addClosure, ← hx]
  · simp only [Heap.extent, Heap.addClosure, Array.size_push, Stage.addClosure, ← hx']

theorem Store.addClass (L : S.Lawful) {m m' : Machine} (hm : S.Store t m m') {k k' : ClassObject}
    (hk : S.ClassMatch t.world t.extent.classes k k') :
    S.Store t.addClass { m with heap := (m.heap.addClass k).2 } { m' with heap := (m'.heap.addClass k').2 } := by
  have later := t.later_addClass L
  obtain ⟨hsize, hsize'⟩ := hm.classes_size
  have hx := hm.extent
  have hx' := hm.extent'
  refine
    { left := hm.left, right := hm.right, extent := ?_, extent' := ?_, frames := hm.frames
      slots := SlotsHeld.mono hm.slots later.extent
      closures := hm.closures
      classes := relOption_push hm.classes (hsize.trans hsize'.symm) (hsize ▸ hk)
      instances := hm.instances
      fields := fun id i hi =>
        ⟨Nat.lt_succ_of_lt (hm.fields id i hi).1, fun n v hv => ((hm.fields id i hi).2 n v hv).mono later.extent⟩
      printed := hm.printed, clock := hm.clock, ticks := hm.ticks }
  · simp only [Heap.extent, Heap.addClass, Array.size_push, Stage.addClass, ← hx]
  · simp only [Heap.extent, Heap.addClass, Array.size_push, Stage.addClass, ← hx']

theorem Store.addInstance (L : S.Lawful) {m m' : Machine} (hm : S.Store t m m') {id : ClassId}
    (hid : id < t.extent.classes) :
    S.Store t.addInstance { m with heap := (m.heap.addInstance id).2 }
      { m' with heap := (m'.heap.addInstance id).2 } := by
  have later := t.later_addInstance L
  have hx := hm.extent
  have hx' := hm.extent'
  refine
    { left := hm.left, right := hm.right, extent := ?_, extent' := ?_, frames := hm.frames
      slots := SlotsHeld.mono hm.slots later.extent
      closures := hm.closures, classes := hm.classes
      instances := by simp only [Heap.addInstance, hm.instances]
      fields := ?_
      printed := hm.printed, clock := hm.clock, ticks := hm.ticks }
  · simp only [Heap.extent, Heap.addInstance, Array.size_push, Stage.addInstance, ← hx]
  · simp only [Heap.extent, Heap.addInstance, Array.size_push, Stage.addInstance, ← hx']
  · intro other i hi
    simp only [Heap.addInstance, Array.getElem?_push] at hi
    split at hi
    · cases hi
      exact ⟨hid, fun n v hv => by simp at hv⟩
    · have old := hm.fields other i hi
      exact ⟨old.1, fun n v hv => (old.2 n v hv).mono later.extent⟩

theorem Store.setField {m m' : Machine} (hm : S.Store t m m') (id : InstanceId) (name : String) {v : Value}
    (hv : t.extent.Holds v) :
    S.Store t { m with heap := m.heap.setField id name v } { m' with heap := m'.heap.setField id name v } := by
  have hx := hm.extent
  have hx' := hm.extent'
  refine
    { left := hm.left, right := hm.right, extent := ?_, extent' := ?_, frames := hm.frames, slots := hm.slots
      closures := hm.closures, classes := hm.classes
      instances := ?_, fields := ?_
      printed := hm.printed, clock := hm.clock, ticks := hm.ticks }
  · simpa only [Heap.extent, Heap.setField, Array.size_modify] using hx
  · simpa only [Heap.extent, Heap.setField, Array.size_modify] using hx'
  · simp only [Heap.setField, hm.instances]
  · intro other i hi
    simp only [Heap.setField, Array.getElem?_modify] at hi
    split at hi
    · obtain ⟨j, hj, rfl⟩ := Option.map_eq_some_iff.1 hi
      have old := hm.fields other j hj
      refine ⟨old.1, fun n u hu => ?_⟩
      simp only [Table.find?_insert] at hu
      split at hu
      · cases hu
        exact hv
      · exact old.2 n u hu
    · exact hm.fields other i hi

theorem Store.print {m m' : Machine} (hm : S.Store t m m') (line : String) :
    S.Store t { m with printed := m.printed.push line } { m' with printed := m'.printed.push line } :=
  { hm with printed := congrArg (·.push line) hm.printed }

theorem Store.tick {m m' : Machine} (hm : S.Store t m m') :
    S.Store t { m with ticks := m.ticks + 1 } { m' with ticks := m'.ticks + 1 } :=
  { hm with ticks := congrArg (· + 1) hm.ticks }

/-! ## Fresh machines -/

/-- The clock is the only variable that is there before any program has run. -/
theorem find?_start {id : FrameId} {name : String} {slot : Slot} (h : Heap.start.frames.find? id name = some slot) :
    id = Heap.globalFrame ∧ name = Native.clock.name ∧ slot = .value (.native .clock) := by
  unfold Heap.start Frames.find? at h
  cases id with
  | zero =>
      simp only [List.getElem?_toArray, List.getElem?_cons_zero, Option.bind_some, Table.find?_singleton] at h
      split at h
      · next same => exact ⟨rfl, same, (Option.some.inj h).symm⟩
      · cases h
  | succ id => simp at h

/-- Machines in which no program has run, the second perhaps with more frames. -/
theorem Store.start {w : S.World} {F : Frames} (h : S.frames w Heap.start.frames F) (c : Chain)
    (clock : Nat → Float) :
    S.Store ⟨w, ⟨0, 0, 0⟩, Heap.globalChain, c⟩ (Machine.start clock)
      { Machine.start clock with heap := { Heap.start with frames := F }, chain := c } where
  left := rfl
  right := rfl
  extent := rfl
  extent' := rfl
  frames := h
  slots id name v hv := by
    cases (find?_start hv).2.2
    trivial
  closures id := by simp [Machine.start, Heap.start]
  classes id := by simp [Machine.start, Heap.start]
  instances := rfl
  fields id i hi := by simp [Machine.start, Heap.start] at hi
  printed := rfl
  clock := rfl
  ticks := rfl

/-! ## Looking at objects -/

theorem Store.method? {m m' : Machine} (hm : S.Store t m m') (id : ClassId) (name : String) :
    Option.Rel (S.MethodMatch t.world) (m.heap.method? id name) (m'.heap.method? id name) := by
  induction id using Nat.strongRecOn with
  | ind id ih =>
      have hk := hm.classes id
      rw [Heap.method?, Heap.method?]
      generalize m.heap.classes[id]? = k at hk
      generalize m'.heap.classes[id]? = k' at hk
      cases hk with
      | none => exact .none
      | @some k k' hkk =>
          have hmethod := hkk.methods name
          dsimp only
          generalize k.methods.find? name = f at hmethod
          generalize k'.methods.find? name = f' at hmethod
          cases hmethod with
          | some hff => exact .some hff
          | none =>
              dsimp only
              rw [← hkk.superclass]
              cases hs : k.superclass with
              | none => exact .none
              | some s =>
                  have hlt := hkk.older s hs
                  dsimp only
                  rw [if_pos hlt, if_pos hlt]
                  exact ih s hlt

theorem ClosureMatch.arity (L : S.Lawful) {w : S.World} {c c' : Closure} (h : S.ClosureMatch w c c') :
    c.arity = c'.arity := by
  obtain ⟨Γ, _, hf, _⟩ := h.site
  obtain ⟨Γ₁, hp, _⟩ := hf.body
  exact L.parameters_length hp

theorem MethodMatch.arity (L : S.Lawful) {w : S.World} {c c' : Closure} (h : S.MethodMatch w c c') :
    c.arity = c'.arity := by
  obtain ⟨Γ, b, _, hf⟩ := h.site
  obtain ⟨Γ₁, hp, _⟩ := hf.body
  exact L.parameters_length hp

theorem Store.arity? (L : S.Lawful) {m m' : Machine} (hm : S.Store t m m') (v : Value) :
    m.heap.arity? v = m'.heap.arity? v := by
  cases v with
  | plain l => rfl
  | native f => rfl
  | instanceRef id => rfl
  | closureRef id =>
      have hc := hm.closures id
      unfold Heap.arity?
      dsimp only
      generalize m.heap.closures[id]? = c at hc
      generalize m'.heap.closures[id]? = c' at hc
      cases hc with
      | none => rfl
      | some h => exact congrArg some (h.arity L)
  | classRef id =>
      have hi := hm.method? id FunctionDecl.initializerName
      unfold Heap.arity? Heap.initializer?
      dsimp only
      generalize m.heap.method? id FunctionDecl.initializerName = c at hi
      generalize m'.heap.method? id FunctionDecl.initializerName = c' at hi
      cases hi with
      | none => rfl
      | some h => exact congrArg some (h.arity L)

theorem Store.className {m m' : Machine} (hm : S.Store t m m') (id : ClassId) :
    m.heap.className id = m'.heap.className id := by
  have hk := hm.classes id
  unfold Heap.className
  generalize m.heap.classes[id]? = k at hk
  generalize m'.heap.classes[id]? = k' at hk
  cases hk with
  | none => rfl
  | some h => exact h.name

/-- Equal values are shown alike. -/
theorem Store.display {m m' : Machine} (hm : S.Store t m m') (v : Value) :
    m.heap.display v = m'.heap.display v := by
  cases v with
  | plain l => rfl
  | native f => rfl
  | classRef id => exact hm.className id
  | closureRef id =>
      have hc := hm.closures id
      unfold Heap.display
      dsimp only
      generalize m.heap.closures[id]? = c at hc
      generalize m'.heap.closures[id]? = c' at hc
      cases hc with
      | none => rfl
      | some h =>
          obtain ⟨Γ, _, hf, _⟩ := h.site
          simp only [Option.elim_some, hf.name]
  | instanceRef id =>
      unfold Heap.display
      dsimp only
      rw [← hm.instances]
      cases m.heap.instances[id]? with
      | none => rfl
      | some i => simp only [Option.elim_some, hm.className]

end Lockstep

end LoxScript
