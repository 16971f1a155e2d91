import LoxScript.Run.Evaluate

/-!
# What reaching a variable amounts to

Reading and changing a variable come down to a pure look at the frames: either they succeed, or the run stops
in a way that the failed access alone decides.
-/

namespace LoxScript

/-- The stop that a failed access leads to. Only names that are missing or hold no value are errors of the
program. -/
def AccessError.stop : AccessError → Stop
  | .undefined name => .error ⟨.undefinedVariable name.text, name.text, name.line⟩
  | .uninitialized name => .error ⟨.uninitializedVariable name.text, name.text, name.line⟩
  | .unbound name => .fault (.access (.unbound name))
  | .beyond excess => .fault (.access (.beyond excess))

namespace Frames

def lookUp (frames : Frames) (chain : Chain) (name : Name) : Binding → Except AccessError Value
  | .global => frames.get Heap.globalChain name
  | .scoped distance => frames.getAt chain distance name

/-- The frame that an assignment through a reference changes. -/
def target (frames : Frames) (chain : Chain) (name : Name) : Binding → Except AccessError FrameId
  | .global => frames.holder Heap.globalChain name
  | .scoped distance => ancestor chain distance

/-- The value of one of the variables that the machine itself binds. -/
def own? (frames : Frames) (chain : Chain) (distance : Int) (name : String) : Option Value :=
  match frames.slotAt chain distance name with
  | .ok (.value v) => some v
  | _ => none

/-- The frame and slot that lie behind a successful look-up by name. -/
theorem get_eq_ok {frames : Frames} {chain : Chain} {name : Name} {v : Value}
    (h : frames.get chain name = .ok v) : ∃ id, frames.find? id name.text = some (.value v) := by
  unfold get holder at h
  cases hid : frames.holder? name.text chain with
  | none => simp [hid, bind, Except.bind] at h
  | some id =>
      simp only [hid, bind, Except.bind] at h
      cases hs : frames.find? id name.text with
      | none => simp [hs] at h
      | some slot =>
          cases slot with
          | uninitialized => simp [hs, Slot.read] at h
          | value u =>
              simp only [hs, Slot.read, Except.ok.injEq] at h
              exact ⟨id, by rw [hs, h]⟩

/-- By name, only the global frame is looked at from top-level code. -/
theorem holder_globalChain (frames : Frames) (name : Name) :
    frames.holder Heap.globalChain name =
      if (frames.find? Heap.globalFrame name.text).isSome then .ok Heap.globalFrame
      else .error (.undefined name) := by
  unfold holder Heap.globalChain holder? holder?
  cases (frames.find? Heap.globalFrame name.text).isSome <;> rfl

theorem get_globalChain (frames : Frames) (name : Name) :
    frames.get Heap.globalChain name =
      match frames.find? Heap.globalFrame name.text with
      | some slot => slot.read name
      | none => .error (.undefined name) := by
  unfold get
  rw [holder_globalChain]
  cases hfound : frames.find? Heap.globalFrame name.text with
  | none => rfl
  | some slot => simp [bind, Except.bind, hfound]

theorem slotAt_eq_ok {frames : Frames} {chain : Chain} {distance : Int} {name : String} {slot : Slot}
    (h : frames.slotAt chain distance name = .ok slot) :
    ∃ id, chain[distance.toNat]? = some id ∧ frames.find? id name = some slot := by
  unfold slotAt ancestor at h
  cases hid : chain[distance.toNat]? with
  | none => simp [hid, bind, Except.bind] at h
  | some id =>
      simp only [hid, bind, Except.bind] at h
      cases hs : frames.find? id name with
      | none => simp [hs] at h
      | some s =>
          simp only [hs, Except.ok.injEq] at h
          exact ⟨id, rfl, by rw [hs, h]⟩

/-- A look at a given distance never fails for want of a declaration. -/
theorem slotAt_eq_error {frames : Frames} {chain : Chain} {distance : Int} {name : String} {e : AccessError}
    (h : frames.slotAt chain distance name = .error e) :
    (∃ n, e = .unbound n) ∨ ∃ k, e = .beyond k := by
  unfold slotAt ancestor at h
  cases hid : chain[distance.toNat]? with
  | none =>
      simp only [hid, bind, Except.bind, Except.error.injEq] at h
      exact .inr ⟨_, h.symm⟩
  | some id =>
      simp only [hid, bind, Except.bind] at h
      cases hs : frames.find? id name with
      | none =>
          simp only [hs, Except.error.injEq] at h
          exact .inl ⟨_, h.symm⟩
      | some s => simp [hs] at h

theorem slotAt_of_find? {frames : Frames} {chain : Chain} {distance : Int} {name : String} {id : FrameId}
    {slot : Slot} (hid : chain[distance.toNat]? = some id) (h : frames.find? id name = some slot) :
    frames.slotAt chain distance name = .ok slot := by
  simp [slotAt, ancestor, hid, h, bind, Except.bind]

/-- Only the frame at the distance matters. -/
theorem slotAt_congr {frames frames' : Frames} {chain chain' : Chain} {distance distance' : Int} {name : String}
    {id id' : FrameId} (hid : chain[distance.toNat]? = some id) (hid' : chain'[distance'.toNat]? = some id')
    (same : frames.find? id name = frames'.find? id' name) :
    frames.slotAt chain distance name = frames'.slotAt chain' distance' name := by
  unfold slotAt ancestor
  simp only [hid, hid', bind, Except.bind, same]

theorem getAt_eq_ok {frames : Frames} {chain : Chain} {distance : Int} {name : Name} {v : Value}
    (h : frames.getAt chain distance name = .ok v) :
    ∃ id, frames.find? id name.text = some (.value v) := by
  unfold getAt at h
  cases hs : frames.slotAt chain distance name.text with
  | error e => simp [hs, bind, Except.bind] at h
  | ok slot =>
      obtain ⟨id, _, hf⟩ := slotAt_eq_ok hs
      cases slot with
      | uninitialized => simp [hs, bind, Except.bind, Slot.read] at h
      | value u =>
          simp only [hs, bind, Except.bind, Slot.read, Except.ok.injEq] at h
          exact ⟨id, by rw [hf, h]⟩

theorem lookUp_eq_ok {frames : Frames} {chain : Chain} {name : Name} {ref : Binding} {v : Value}
    (h : frames.lookUp chain name ref = .ok v) : ∃ id, frames.find? id name.text = some (.value v) :=
  match ref with
  | .global => get_eq_ok h
  | .scoped _ => getAt_eq_ok h

theorem own?_eq_some {frames : Frames} {chain : Chain} {distance : Int} {name : String} {v : Value} :
    frames.own? chain distance name = some v ↔ frames.slotAt chain distance name = .ok (.value v) := by
  unfold own?
  split
  · next u h => simp [h]
  · next h =>
      constructor
      · intro hn
        cases hn
      · intro hv
        exact absurd hv (h v)

theorem find?_push (frames : Frames) (frame : Frame) (id : FrameId) (name : String) :
    Frames.find? (frames.push frame) id name =
      if id = frames.size then frame.find? name else frames.find? id name := by
  unfold find?
  rw [Array.getElem?_push]
  split <;> rfl

end Frames

namespace Run

theorem newInstance_eq (id : ClassId) (m : Machine) :
    newInstance id m = .ok m.heap.instances.size { m with heap := (m.heap.addInstance id).2 } := rfl

theorem get_bind {α : Type} (x : Machine → Run α) (m : Machine) :
    (MonadState.get >>= x : Run α) m = x m m := rfl

theorem bind_of_ok {α β : Type} {x : Run α} {m m' : Machine} {a : α} (f : α → Run β) (h : x m = .ok a m') :
    (x >>= f) m = f a m' := by
  show EStateM.bind x f m = f a m'
  unfold EStateM.bind
  rw [h]

theorem bind_of_error {α β : Type} {x : Run α} {m m' : Machine} {s : Stop} (f : α → Run β)
    (h : x m = .error s m') : (x >>= f) m = .error s m' := by
  show EStateM.bind x f m = .error s m'
  unfold EStateM.bind
  rw [h]

theorem inChain_of_ok {α : Type} {chain : Chain} {body : Run α} {m m' : Machine} {a : α}
    (h : body { m with chain := chain } = .ok a m') : inChain chain body m = .ok a { m' with chain := m.chain } := by
  unfold inChain
  dsimp only
  rw [h]

theorem inChain_of_error {α : Type} {chain : Chain} {body : Run α} {m m' : Machine} {s : Stop}
    (h : body { m with chain := chain } = .error s m') :
    inChain chain body m = .error s { m' with chain := m.chain } := by
  unfold inChain
  dsimp only
  rw [h]

theorem catchReturn_of_error {body : Run Unit} {m m' : Machine} {s : Stop} (h : body m = .error s m')
    (other : ∀ v, s ≠ .returning v) : catchReturn body m = .error s m' := by
  unfold catchReturn
  rw [h]
  cases s with
  | returning v => exact absurd rfl (other v)
  | error | overflow | exhausted | fault => rfl

theorem access_ok {α : Type} (a : α) (m : Machine) : access (.ok a) m = .ok a m := rfl

theorem access_error {α : Type} (e : AccessError) (m : Machine) :
    (access (.error e) : Run α) m = .error e.stop m := by
  cases e <;> rfl

theorem lookUp_eq (name : Name) (ref : Binding) (m : Machine) :
    lookUp name ref m = access (m.heap.frames.lookUp m.chain name ref) m :=
  match ref with
  | .global => rfl
  | .scoped _ => rfl

theorem store_eq (name : Name) (ref : Binding) (v : Value) (m : Machine) :
    store name ref v m = (do
      let id ← access (m.heap.frames.target m.chain name ref)
      modifyHeap (·.define id name.text (.value v)) : Run Unit) m :=
  match ref with
  | .global => rfl
  | .scoped _ => rfl

def stored (m : Machine) (id : FrameId) (name : String) (slot : Slot) : Machine :=
  { m with heap := m.heap.define id name slot }

theorem store_of_ok {name : Name} {ref : Binding} {m : Machine} {id : FrameId} (v : Value)
    (h : m.heap.frames.target m.chain name ref = .ok id) :
    store name ref v m = .ok () (stored m id name.text (.value v)) := by
  rw [store_eq, h]
  rfl

theorem store_of_error {name : Name} {ref : Binding} {m : Machine} {e : AccessError} (v : Value)
    (h : m.heap.frames.target m.chain name ref = .error e) : store name ref v m = .error e.stop m := by
  rw [store_eq, h]
  cases e <;> rfl

theorem define_eq {m : Machine} {id : FrameId} {outer : Chain} (name : String) (slot : Slot)
    (h : m.chain = id :: outer) : define name slot m = .ok () (stored m id name slot) := by
  unfold define
  rw [get_bind, h]
  rfl

theorem closureAt_of_some {m : Machine} {id : ClosureId} {c : Closure} (h : m.heap.closures[id]? = some c) :
    closureAt id m = .ok c m := by
  unfold closureAt
  rw [get_bind, h]
  rfl

theorem instanceAt_of_some {m : Machine} {id : InstanceId} {i : Instance}
    (h : m.heap.instances[id]? = some i) : instanceAt id m = .ok i m := by
  unfold instanceAt
  rw [get_bind, h]
  rfl

theorem lookUpOwn_eq (chain : Chain) (distance : Int) (name : String) (m : Machine) :
    lookUpOwn chain distance name m = (do
      match ← access (m.heap.frames.slotAt chain distance name) with
      | .value v => return v
      | .uninitialized => throw (.fault .danglingReference) : Run Value) m := rfl

theorem lookUpOwn_of_some {chain : Chain} {distance : Int} {name : String} {m : Machine} {v : Value}
    (h : m.heap.frames.own? chain distance name = some v) : lookUpOwn chain distance name m = .ok v m := by
  rw [lookUpOwn_eq, Frames.own?_eq_some.1 h]
  rfl

theorem lookUpOwn_of_none {chain : Chain} {distance : Int} {name : String} {m : Machine}
    (h : m.heap.frames.own? chain distance name = none) :
    ∃ f, lookUpOwn chain distance name m = .error (.fault f) m := by
  rw [lookUpOwn_eq]
  cases hs : m.heap.frames.slotAt chain distance name with
  | ok slot =>
      cases slot with
      | uninitialized => exact ⟨_, rfl⟩
      | value v =>
          rw [Frames.own?_eq_some.2 hs] at h
          cases h
  | error e =>
      have he : (∃ n, e = .unbound n) ∨ ∃ k, e = .beyond k := Frames.slotAt_eq_error hs
      rcases he with ⟨n, rfl⟩ | ⟨k, rfl⟩
      · exact ⟨_, rfl⟩
      · exact ⟨_, rfl⟩

end Run

end LoxScript
