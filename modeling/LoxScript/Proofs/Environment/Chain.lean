import Mathlib.Data.List.TakeDrop
import LoxScript.Proofs.Lockstep.Access

/-!
# Which chains see a change

Frames are shared between chains, so that one change has to be told for every chain: a variable is read from the nearest
frame that binds its name, and a change to a frame is seen by the chains on which nothing stands before that frame.
A look by distance finds what a look by name finds, if it goes to that frame.
-/

namespace LoxScript

namespace Frames

variable {F : Frames} {id : FrameId} {chain : Chain}

/-- Whether the frame stands on the chain and no frame nearer to its beginning binds the name. -/
def Exposed (F : Frames) (name : String) (id : FrameId) (chain : Chain) : Prop :=
  ∃ inner outer, chain = inner ++ id :: outer ∧ ∀ other ∈ inner, F.find? other name = none

theorem not_exposed_nil (F : Frames) (name : String) (id : FrameId) : ¬ F.Exposed name id [] := by
  rintro ⟨inner, outer, empty, -⟩
  simp at empty

theorem exposed_cons {name : String} {first : FrameId} :
    F.Exposed name id (first :: chain) ↔ first = id ∨ F.find? first name = none ∧ F.Exposed name id chain := by
  constructor
  · intro ⟨inner, outer, same, free⟩
    cases inner with
    | nil => exact .inl (List.cons.inj same).1
    | cons other inner =>
        obtain ⟨rfl, rest⟩ := List.cons.inj same
        exact .inr ⟨free first List.mem_cons_self, inner, outer, rest, fun k hk => free k (List.mem_cons_of_mem _ hk)⟩
  · intro h
    cases h with
    | inl here => exact ⟨[], chain, by rw [here, List.nil_append], nofun⟩
    | inr further =>
        obtain ⟨free, inner, outer, rest, freeInner⟩ := further
        exact ⟨first :: inner, outer, by rw [rest, List.cons_append], List.forall_mem_cons.2 ⟨free, freeInner⟩⟩

/-! ## Walking a chain -/

theorem get_nil (F : Frames) (x : Name) : F.get [] x = .error (.undefined x) := rfl

theorem get_cons (F : Frames) (id : FrameId) (outer : Chain) (x : Name) :
    F.get (id :: outer) x = match F.find? id x.text with
      | some slot => slot.read x
      | none => F.get outer x := by
  unfold get holder
  rw [holder?]
  cases found : F.find? id x.text with
  | none => rfl
  | some slot => simp [bind, Except.bind, found]

theorem assign_nil (F : Frames) (x : Name) (slot : Slot) : F.assign [] x slot = .error (.undefined x) := rfl

theorem assign_cons (F : Frames) (id : FrameId) (outer : Chain) (x : Name) (slot : Slot) :
    F.assign (id :: outer) x slot =
      if (F.find? id x.text).isSome then .ok (F.define id x.text slot) else F.assign outer x slot := by
  unfold assign holder
  rw [holder?]
  by_cases bound : (F.find? id x.text).isSome
  · rw [if_pos bound, if_pos bound]
    rfl
  · rw [if_neg bound, if_neg bound]

theorem ne_undefined_read (x : Name) (slot : Slot) : slot.read x ≠ .error (.undefined x) := by
  cases slot <;> simp [Slot.read]

/-- An assignment changes a frame that binds the name, where nothing on the chain stands before the frame. -/
theorem assign_eq_ok {x : Name} {slot : Slot} {G : Frames} (h : F.assign chain x slot = .ok G) :
    ∃ id, F.Exposed x.text id chain ∧ (F.find? id x.text).isSome ∧ G = F.define id x.text slot := by
  induction chain with
  | nil => cases h
  | cons first outer ih =>
      rw [assign_cons] at h
      split at h
      · next bound =>
          cases h
          exact ⟨first, exposed_cons.2 (.inl rfl), bound, rfl⟩
      · next unbound =>
          obtain ⟨id, exposed, bound, changed⟩ := ih h
          have free : F.find? first x.text = none := by simpa using unbound
          exact ⟨id, exposed_cons.2 (.inr ⟨free, exposed⟩), bound, changed⟩

/-- A name that cannot be assigned is one that no frame of the chain binds. -/
theorem assign_eq_error_iff {x : Name} {slot : Slot} {e : AccessError} :
    F.assign chain x slot = .error e ↔ e = .undefined x ∧ F.get chain x = .error (.undefined x) := by
  induction chain with
  | nil => simp [assign_nil, get_nil, eq_comm]
  | cons first outer ih =>
      rw [assign_cons, get_cons]
      cases found : F.find? first x.text with
      | none => simpa using ih
      | some held => simp [ne_undefined_read]

/-! ## What a change of one frame does to all chains -/

theorem lt_size_of_find? {name : String} (bound : (F.find? id name).isSome) : id < F.size := by
  by_contra beyond
  have missing : F[id]? = none := Array.getElem?_eq_none (Nat.le_of_not_lt beyond)
  simp [find?, missing] at bound

theorem get_define_of_exposed {x y : Name} {slot : Slot} (same : y.text = x.text) (exists_ : id < F.size)
    (exposed : F.Exposed x.text id chain) : (F.define id x.text slot).get chain y = slot.read y := by
  induction chain with
  | nil => exact absurd exposed (not_exposed_nil F _ _)
  | cons first outer ih =>
      rw [get_cons, find?_define, same]
      by_cases here : first = id
      · rw [if_pos ⟨here, rfl, exists_⟩]
      · rw [if_neg fun h => here h.1]
        have further := exposed_cons.1 exposed
        obtain ⟨free, exposed⟩ := further.resolve_left here
        rw [free]
        exact ih exposed

theorem get_define_of_hidden {x y : Name} {slot : Slot} (hidden : y.text = x.text → ¬ F.Exposed x.text id chain) :
    (F.define id x.text slot).get chain y = F.get chain y := by
  induction chain with
  | nil => rfl
  | cons first outer ih =>
      have apart : ¬ (first = id ∧ y.text = x.text ∧ id < F.size) :=
        fun h => hidden h.2.1 (exposed_cons.2 (.inl h.1))
      rw [get_cons, get_cons, find?_define, if_neg apart]
      cases found : F.find? first y.text with
      | some held => rfl
      | none =>
          have later : y.text = x.text → ¬ F.Exposed x.text id outer := by
            intro same exposed
            exact hidden same (exposed_cons.2 (.inr ⟨same ▸ found, exposed⟩))
          exact ih later

/-- Frames that differ in one variable, and what chains see of it. -/
structure ChangedAt (F : Frames) (x : Name) (id : FrameId) (slot : Slot) (G : Frames) : Prop where
  find? : ∀ other name, G.find? other name = if other = id ∧ name = x.text then some slot else F.find? other name
  seen : ∀ (viewer : Chain) (y : Name), y.text = x.text ∧ F.Exposed x.text id viewer → G.get viewer y = slot.read y
  unseen : ∀ (viewer : Chain) (y : Name), ¬ (y.text = x.text ∧ F.Exposed x.text id viewer) →
    G.get viewer y = F.get viewer y

theorem changedAt_define (x : Name) (slot : Slot) (exists_ : id < F.size) :
    F.ChangedAt x id slot (F.define id x.text slot) := by
  constructor
  · intro other name
    rw [find?_define]
    simp [exists_]
  · intro viewer y h
    exact get_define_of_exposed h.1 exists_ h.2
  · intro viewer y h
    exact get_define_of_hidden fun same exposed => h ⟨same, exposed⟩

/-- The machine assigns by name in the same way, and stops in the state in which it was where that fails. -/
theorem store_global (x : Name) (v : Value) (m : Machine) :
    Run.store x .global v m = match m.heap.frames.assign Heap.globalChain x (.value v) with
      | .ok G => .ok () { m with heap := { m.heap with frames := G } }
      | .error e => .error e.stop m := by
  cases found : m.heap.frames.target m.chain x .global with
  | ok id =>
      have holder : m.heap.frames.holder Heap.globalChain x = .ok id := found
      rw [Run.store_of_ok v found, assign, holder]
      rfl
  | error e =>
      have holder : m.heap.frames.holder Heap.globalChain x = .error e := found
      rw [Run.store_of_error v found, assign, holder]
      rfl

/-- An assignment gives a value to the nearest variable of its name, and all chains on which that variable is the nearest
of its name see the value; no other chain and no other name is concerned. A definition is seen by the chains on which
its frame stands with no binding of the name before it. An assignment fails where a look by name finds nothing, and then
nothing has changed. -/
theorem changes_seen (F : Frames) (chain : Chain) (x : Name) (slot : Slot) :
    (∀ G, F.assign chain x slot = .ok G →
      ∃ id, F.Exposed x.text id chain ∧ (F.find? id x.text).isSome ∧ F.ChangedAt x id slot G) ∧
    (∀ id < F.size, F.ChangedAt x id slot (F.define id x.text slot)) ∧
    (∀ e, F.assign chain x slot = .error e ↔ e = .undefined x ∧ F.get chain x = .error (.undefined x)) ∧
    ∀ (m m' : Machine) (v : Value) (stop : Stop), Run.store x .global v m = .error stop m' →
      m' = m ∧ m.heap.frames.get Heap.globalChain x = .error (.undefined x) := by
  refine ⟨?_, fun id => changedAt_define x slot, fun e => assign_eq_error_iff, ?_⟩
  · intro G h
    obtain ⟨id, exposed, bound, rfl⟩ := assign_eq_ok h
    exact ⟨id, exposed, bound, changedAt_define x slot (lt_size_of_find? bound)⟩
  · intro m m' v stop h
    rw [store_global] at h
    split at h
    · cases h
    · next e failed =>
        cases h
        exact ⟨rfl, (assign_eq_error_iff.1 failed).2⟩

/-- Two chains that share an outer frame, one of which has a variable of its own. -/
theorem changes_seen_shared :
    let x : Name := ⟨"a", 1⟩
    let F : Frames := #[.singleton "a" (.value (.bool true)), .empty, .singleton "a" .uninitialized]
    ∃ G, F.assign [1, 0] x (.value .nil) = .ok G ∧ G.get [0] x = .ok .nil ∧
      G.get [2, 0] x = .error (.uninitialized x) := by
  intro x F
  obtain ⟨assigned, -⟩ := changes_seen F [1, 0] x (.value .nil)
  obtain ⟨id, exposed, bound, changed⟩ := assigned _ rfl
  have zero : id = 0 := by
    have first : 1 ≠ id := by
      rintro rfl
      cases bound
    obtain ⟨-, further⟩ := (exposed_cons.1 exposed).resolve_left first
    have last := (exposed_cons.1 further).resolve_right fun h => not_exposed_nil F _ _ h.2
    exact last.symm
  subst zero
  have shadowed : ¬ F.Exposed "a" 0 [2, 0] := by
    intro h
    obtain ⟨free, -⟩ := (exposed_cons.1 h).resolve_left (by decide)
    cases free
  refine ⟨_, rfl, changed.seen [0] x ⟨rfl, exposed_cons.2 (.inl rfl)⟩, ?_⟩
  exact changed.unseen [2, 0] x fun h => shadowed h.2

/-! ## Looking by distance -/

/-- The frame at the index of the nearest binding is where looks by name and by distance meet. -/
theorem nearest_eq {x : Name} {d : Nat} (nearest : chain.findIdx? (fun id => (F.find? id x.text).isSome) = some d) :
    ∃ id slot, chain[d]? = some id ∧ F.find? id x.text = some slot ∧ F.holder chain x = .ok id := by
  induction chain generalizing d with
  | nil => cases nearest
  | cons first outer ih =>
      rw [List.findIdx?_cons] at nearest
      by_cases bound : (F.find? first x.text).isSome
      · rw [if_pos bound] at nearest
        cases nearest
        obtain ⟨slot, found⟩ := Option.isSome_iff_exists.1 bound
        refine ⟨first, slot, rfl, found, ?_⟩
        rw [holder, holder?, if_pos bound]
      · rw [if_neg bound] at nearest
        obtain ⟨k, further, rfl⟩ := Option.map_eq_some_iff.1 nearest
        obtain ⟨id, slot, at_, found, holder⟩ := ih further
        refine ⟨id, slot, at_, found, ?_⟩
        rw [Frames.holder, holder?, if_neg bound]
        exact holder

/-- The machine changes the frame at a distance in the same way. -/
theorem store_scoped (x : Name) (d : Nat) (v : Value) (m : Machine) :
    Run.store x (.scoped d) v m = match m.heap.frames.assignAt m.chain d x.text (.value v) with
      | .ok G => .ok () { m with heap := { m.heap with frames := G } }
      | .error e => .error e.stop m := by
  cases found : m.heap.frames.target m.chain x (.scoped d) with
  | ok id =>
      have there : ancestor m.chain d = .ok id := found
      rw [Run.store_of_ok v found, assignAt, there]
      rfl
  | error e =>
      have there : ancestor m.chain d = .error e := found
      rw [Run.store_of_error v found, assignAt, there]
      rfl

/-- The frame at a distance is as many links out as the distance says, if the chain is that long. -/
theorem ancestor_of_lt {d : Int} (inside : max d 0 < chain.length) :
    ∃ id, (List.tail^[(max d 0).toNat] chain).head? = some id ∧ ancestor chain d = .ok id := by
  have same : (max d 0).toNat = d.toNat := by omega
  have bound : d.toNat < chain.length := by omega
  refine ⟨chain[d.toNat], ?_, ?_⟩
  · rw [List.tail_iterate, List.head?_drop, same, List.getElem?_eq_getElem bound]
  · rw [ancestor, List.getElem?_eq_getElem bound]

theorem ancestor_eq_beyond_iff {d : Int} {excess : Nat} :
    ancestor chain d = .error (.beyond excess) ↔ d.toNat = chain.length + excess := by
  by_cases bound : d.toNat < chain.length
  · rw [ancestor, List.getElem?_eq_getElem bound]
    simp only [reduceCtorEq, false_iff]
    omega
  · rw [ancestor, List.getElem?_eq_none (Nat.le_of_not_lt bound)]
    simp only [Except.error.injEq, AccessError.beyond.injEq]
    omega

/-- Where a distance leads to the nearest frame that binds a name, looks and assignments by distance are those by name.
A distance leads as many links out as it says. One that leads just outside the chain finds no frame there, and one that
leads further finds no link to follow. What fails changes nothing. -/
theorem distances_agree (F : Frames) (id : FrameId) (outer : Chain) (x : Name) (slot : Slot) :
    (∀ d : Nat, (id :: outer).findIdx? (fun k => (F.find? k x.text).isSome) = some d →
      F.getAt (id :: outer) d x = F.get (id :: outer) x ∧
      ((∃ v, F.get (id :: outer) x = .ok v) ∨ F.get (id :: outer) x = .error (.uninitialized x)) ∧
      ∃ G, F.assignAt (id :: outer) d x.text slot = .ok G ∧ F.assign (id :: outer) x slot = .ok G) ∧
    (∀ d : Int,
      (max d 0 < (id :: outer).length → ∃ far,
        (List.tail^[(max d 0).toNat] (id :: outer)).head? = some far ∧ ancestor (id :: outer) d = .ok far) ∧
      (ancestor (id :: outer) d = .error .noFrame ↔ d = (id :: outer).length) ∧
      ((∃ k, ancestor (id :: outer) d = .error (.noLink k)) ↔ (id :: outer).length < d)) ∧
    ∀ (m m' : Machine) (d : Nat) (stop : Stop),
      (Run.lookUp x (.scoped d) m = .error stop m' → m' = m) ∧
      ∀ v, Run.store x (.scoped d) v m = .error stop m' → m' = m := by
  refine ⟨?_, ?_, ?_⟩
  · intro d nearest
    obtain ⟨far, held, at_, found, holder⟩ := nearest_eq nearest
    have there : ancestor (id :: outer) d = .ok far := by
      rw [ancestor, Int.toNat_natCast, at_]
    have byName : F.get (id :: outer) x = held.read x := by
      rw [get, holder]
      simp [bind, Except.bind, found]
    refine ⟨?_, ?_, F.define far x.text slot, ?_, ?_⟩
    · rw [byName, getAt, slotAt_of_find? at_ found]
      rfl
    · rw [byName]
      cases held with
      | uninitialized => exact .inr rfl
      | value v => exact .inl ⟨v, rfl⟩
    · rw [assignAt, there]
      rfl
    · rw [assign, holder]
      rfl
  · intro d
    have some_frame : 0 < (id :: outer).length := Nat.succ_pos _
    refine ⟨ancestor_of_lt, ?_, ?_⟩
    · rw [ancestor_eq_beyond_iff]
      omega
    · constructor
      · intro beyond
        obtain ⟨k, far⟩ := beyond
        have excess := ancestor_eq_beyond_iff.1 far
        omega
      · intro far
        refine ⟨d.toNat - (id :: outer).length - 1, ancestor_eq_beyond_iff.2 ?_⟩
        omega
  · intro m m' d stop
    constructor
    · intro failed
      rw [Run.lookUp_eq] at failed
      cases found : m.heap.frames.lookUp m.chain x (.scoped d) with
      | ok v =>
          rw [found] at failed
          cases failed
      | error e =>
          rw [found, Run.access_error] at failed
          cases failed
          rfl
    · intro v failed
      rw [store_scoped] at failed
      split at failed
      · cases failed
      · cases failed
        rfl

/-- A distance that leads past a frame without the name to the one that binds it. -/
theorem distances_agree_outer :
    let x : Name := ⟨"a", 1⟩
    let F : Frames := #[.singleton "a" .uninitialized, .empty]
    F.getAt [1, 0] 1 x = .error (.uninitialized x) ∧ F.get [1, 0] x = .error (.uninitialized x) ∧
      F.assignAt [1, 0] 1 "a" (.value .nil) = F.assign [1, 0] x (.value .nil) ∧
      ancestor [1, 0] 2 = .error .noFrame := by
  intro x F
  obtain ⟨near, far, -⟩ := distances_agree F 1 [0] x (.value .nil)
  obtain ⟨read, -, G, byDistance, byName⟩ := near 1 (by decide)
  have unset : F.get [1, 0] x = .error (.uninitialized x) := rfl
  exact ⟨read.trans unset, unset, byDistance.trans byName.symm, (far 2).2.1.2 rfl⟩

end Frames

end LoxScript
