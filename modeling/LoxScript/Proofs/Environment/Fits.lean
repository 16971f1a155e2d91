import LoxScript.Proofs.Lockstep.Basic
import LoxScript.Proofs.Scope.Context

/-!
# Environments that fit scopes

The environment in which a piece of code runs has one frame for each scope around the code, in the same order,
and then the global frame. Frames may bind more than the scopes say, because declarations further down extend
them; they never bind less.
-/

namespace LoxScript

/-- Whether a chain has a frame for each of the scopes, which binds the names whose initializers have been
passed. Every frame is newer than those further out. -/
inductive Fits (frames : Frames) : List Scope → Chain → Prop where
  | global : Fits frames [] Heap.globalChain
  | scope {scope scopes id outer} : id < frames.size → (∀ other ∈ outer, other < id) →
      (∀ name, scope.find? name = some true → (frames.find? id name).isSome) → Fits frames scopes outer →
      Fits frames (scope :: scopes) (id :: outer)

/-- Frames that have kept everything that was bound. -/
structure Frames.Extends (old new : Frames) : Prop where
  size : old.size ≤ new.size
  bound : ∀ id name, (old.find? id name).isSome → (new.find? id name).isSome

namespace Frames.Extends

theorem refl (F : Frames) : F.Extends F := ⟨Nat.le_refl _, fun _ _ h => h⟩

theorem trans {F G H : Frames} (h : F.Extends G) (h' : G.Extends H) : F.Extends H :=
  ⟨Nat.le_trans h.size h'.size, fun id name hb => h'.bound id name (h.bound id name hb)⟩

theorem define (F : Frames) (id : FrameId) (name : String) (slot : Slot) :
    F.Extends (F.define id name slot) := by
  refine ⟨Nat.le_of_eq (Frames.size_define F id name slot).symm, fun other name' h => ?_⟩
  rw [Frames.find?_define]
  split
  · rfl
  · exact h

theorem push (F : Frames) (frame : Frame) : F.Extends (F.push frame) := by
  refine ⟨by simp, fun id name h => ?_⟩
  rw [Frames.find?_push]
  split
  · next hid =>
      subst hid
      simp [Frames.find?] at h
  · exact h

end Frames.Extends

namespace Fits

variable {F G : Frames} {scopes : List Scope} {chain : Chain}

theorem mono (h : Fits F scopes chain) (hG : F.Extends G) : Fits G scopes chain := by
  induction h with
  | global => exact .global
  | scope hid hnewer hbound _ ih =>
      exact .scope (Nat.lt_of_lt_of_le hid hG.size) hnewer (fun name hn => hG.bound _ _ (hbound name hn)) ih

theorem lt (h : Fits F scopes chain) (hF : 0 < F.size) : ∀ id ∈ chain, id < F.size := by
  induction h with
  | global =>
      intro id hid
      rw [List.mem_singleton.1 hid]
      exact hF
  | scope hid _ _ _ ih =>
      intro other hother
      rcases List.mem_cons.1 hother with rfl | hother
      · exact hid
      · exact ih other hother

theorem length_eq (h : Fits F scopes chain) : chain.length = scopes.length + 1 := by
  induction h with
  | global => rfl
  | scope _ _ _ _ ih => rw [List.length_cons, List.length_cons, ih]

/-- The frame of each scope is as far out as the scope. -/
theorem get (h : Fits F scopes chain) {d : Nat} {scope : Scope} (hd : scopes[d]? = some scope) :
    ∃ id, chain[d]? = some id ∧ id < F.size ∧
      ∀ name, scope.find? name = some true → (F.find? id name).isSome := by
  induction h generalizing d with
  | global => simp at hd
  | scope hid _ hbound _ ih =>
      cases d with
      | zero =>
          cases hd
          exact ⟨_, rfl, hid, hbound⟩
      | succ d => exact ih hd

theorem head (h : Fits F scopes chain) (hF : 0 < F.size) : ∃ id outer, chain = id :: outer ∧ id < F.size := by
  cases h with
  | global => exact ⟨0, [], rfl, hF⟩
  | scope hid _ _ _ => exact ⟨_, _, rfl, hid⟩

/-- A new innermost frame for a new innermost scope. -/
theorem push (h : Fits F scopes chain) (hF : 0 < F.size) {frame : Frame} {scope : Scope}
    (hframe : ∀ name, scope.find? name = some true → (frame.find? name).isSome) :
    Fits (F.push frame) (scope :: scopes) (F.size :: chain) := by
  refine .scope (by simp) (h.lt hF) (fun name hn => ?_) (h.mono (.push F frame))
  rw [Frames.find?_push, if_pos rfl]
  exact hframe name hn

/-- A declaration that takes place in the innermost frame and scope. -/
theorem mark {Γ : Context} {id : FrameId} {outer : Chain} (h : Fits F Γ.scopes (id :: outer)) (name : String)
    (slot : Slot) : Fits (F.define id name slot) (Γ.mark name true).scopes (id :: outer) := by
  obtain ⟨scopes, _, _⟩ := Γ
  cases scopes with
  | nil => exact h.mono (.define F id name slot)
  | cons scope scopes =>
      cases h with
      | scope hid hnewer hbound houter =>
          have ext := Frames.Extends.define F id name slot
          refine .scope (Nat.lt_of_lt_of_le hid ext.size) hnewer (fun other ho => ?_) (houter.mono ext)
          rw [Frames.find?_define]
          by_cases same : other = name
          · rw [if_pos ⟨rfl, same, hid⟩]
            rfl
          · rw [if_neg fun h => same h.2.1]
            rw [Table.find?_insert_of_ne _ _ same] at ho
            exact hbound other ho

/-- A variable whose initializer is under way need not be bound yet. -/
theorem unpassed {Γ : Context} (h : Fits F Γ.scopes chain) (name : String) :
    Fits F (Γ.mark name false).scopes chain := by
  obtain ⟨scopes, _, _⟩ := Γ
  cases scopes with
  | nil => exact h
  | cons scope scopes =>
      cases h with
      | scope hid hnewer hbound houter =>
          refine .scope hid hnewer (fun other ho => ?_) houter
          rw [Table.find?_insert] at ho
          split at ho
          · cases ho
          · exact hbound other ho

end Fits

/-! ## Where names are found -/

theorem distance?_eq_some {name : String} {scopes : List Scope} {d : Nat} (h : distance? name scopes = some d) :
    ∃ scope, scopes[d]? = some scope ∧ scope.contains name = true := by
  induction scopes generalizing d with
  | nil => simp [distance?] at h
  | cons scope outer ih =>
      simp only [distance?] at h
      split at h
      · next hc =>
          cases h
          exact ⟨scope, rfl, hc⟩
      · obtain ⟨e, he, rfl⟩ := Option.map_eq_some_iff.1 h
        exact ih he

/-- Scopes that do not declare a name are passed over. -/
theorem distance?_append {name : String} {inner : List Scope} {scope : Scope} {outer : List Scope}
    (h : ∀ s ∈ inner, s.contains name = false) (hs : scope.contains name = true) :
    distance? name (inner ++ scope :: outer) = some inner.length := by
  induction inner with
  | nil => simp [distance?, hs]
  | cons s inner ih =>
      have first := h s List.mem_cons_self
      have rest := ih fun t ht => h t (List.mem_cons_of_mem _ ht)
      simp [distance?, first, rest]

namespace Context

/-- A scope in which neither `this` nor `super` is bound. -/
def IsOrdinary (scope : Scope) : Prop :=
  scope.contains Keyword.thisWord.text = false ∧ scope.contains Keyword.superWord.text = false

/-- Inside a method, the innermost scope for `this` belongs to the innermost class, and the scope for `super`
lies just outside it if the class has a superclass. -/
def Shaped (Γ : Context) : Prop :=
  Γ.classContext ≠ .outside → ∃ inner outer, Γ.scopes = inner ++ thisScope :: outer ∧ inner ≠ [] ∧
    (∀ scope ∈ inner, IsOrdinary scope) ∧ (Γ.classContext = .derived → outer.head? = some superScope)

/-- Scopes all of whose initializers have been passed. -/
def Passed (scopes : List Scope) : Prop :=
  ∀ scope ∈ scopes, ∀ name passed, scope.find? name = some passed → passed = true

/-- Surroundings in which a statement may stand. -/
structure Settled (Γ : Context) : Prop where
  passed : Passed Γ.scopes
  shaped : Γ.Shaped

/-- Surroundings in which an expression may stand: the innermost scope may have a name whose initializer is
under way. -/
structure Ready (Γ : Context) : Prop where
  passed : Passed Γ.scopes.tail
  shaped : Γ.Shaped

theorem Settled.ready {Γ : Context} (h : Γ.Settled) : Γ.Ready :=
  ⟨fun scope hs => h.passed scope (List.mem_of_mem_tail hs), h.shaped⟩

theorem isOrdinary_empty : IsOrdinary .empty := ⟨rfl, rfl⟩

theorem IsOrdinary.insert {scope : Scope} (h : IsOrdinary scope) {name : Name} (hn : name.IsIdentifier)
    (passed : Bool) : IsOrdinary (scope.insert name.text passed) := by
  unfold IsOrdinary
  simp [Table.contains_insert, h.1, h.2, (hn.ne_keyword _).symm]

theorem Shaped.push {Γ : Context} (h : Γ.Shaped) : (Γ.push .empty).Shaped := by
  intro hc
  obtain ⟨inner, outer, hs, hne, hord, hsuper⟩ := h hc
  refine ⟨.empty :: inner, outer, by simp [Context.push, hs], by simp, fun scope hscope => ?_, hsuper⟩
  rcases List.mem_cons.1 hscope with rfl | hscope
  · exact isOrdinary_empty
  · exact hord scope hscope

theorem classContext_mark (Γ : Context) (name : String) (passed : Bool) :
    (Γ.mark name passed).classContext = Γ.classContext := by
  obtain ⟨scopes, _, _⟩ := Γ
  cases scopes <;> rfl

theorem function_mark (Γ : Context) (name : String) (passed : Bool) :
    (Γ.mark name passed).function = Γ.function := by
  obtain ⟨scopes, _, _⟩ := Γ
  cases scopes <;> rfl

theorem Shaped.mark {Γ : Context} (h : Γ.Shaped) {name : Name} (hn : name.IsIdentifier) (passed : Bool) :
    (Γ.mark name.text passed).Shaped := by
  intro hc
  rw [classContext_mark] at hc
  obtain ⟨inner, outer, hs, hne, hord, hsuper⟩ := h hc
  cases inner with
  | nil => exact absurd rfl hne
  | cons scope inner =>
      refine ⟨scope.insert name.text passed :: inner, outer, ?_, by simp, fun other hother => ?_, ?_⟩
      · simp [Context.mark, hs]
      · rcases List.mem_cons.1 hother with rfl | hother
        · exact (hord scope List.mem_cons_self).insert hn passed
        · exact hord other (List.mem_cons_of_mem _ hother)
      · rw [classContext_mark]
        exact hsuper

theorem Passed.push {scopes : List Scope} (h : Passed scopes) : Passed (.empty :: scopes) := by
  intro scope hs name passed hp
  rcases List.mem_cons.1 hs with rfl | hs
  · simp at hp
  · exact h scope hs name passed hp

theorem Passed.mark {Γ : Context} (h : Passed Γ.scopes.tail)
    (hhead : ∀ scope ∈ Γ.scopes.head?, ∀ other passed, scope.find? other = some passed → passed = true)
    (name : String) : Passed (Γ.mark name true).scopes := by
  obtain ⟨scopes, _, _⟩ := Γ
  cases scopes with
  | nil => exact h
  | cons scope scopes =>
      intro other ho key passed hp
      rcases List.mem_cons.1 ho with rfl | ho
      · rw [Table.find?_insert] at hp
        split at hp
        · cases hp
          rfl
        · exact hhead scope rfl key passed hp
      · exact h other ho key passed hp

theorem Settled.push {Γ : Context} (h : Γ.Settled) : (Γ.push .empty).Settled :=
  ⟨h.passed.push, h.shaped.push⟩

theorem Settled.mark {Γ : Context} (h : Γ.Settled) {name : Name} (hn : name.IsIdentifier) :
    (Γ.mark name.text true).Settled := by
  refine ⟨Passed.mark h.ready.passed (fun scope hs => ?_) _, h.shaped.mark hn true⟩
  exact h.passed scope (List.mem_of_mem_head? hs)

theorem Settled.markAll {Γ : Context} (h : Γ.Settled) {names : List Name} (hns : ∀ n ∈ names, n.IsIdentifier) :
    (Γ.markAll names).Settled := by
  induction names generalizing Γ with
  | nil => exact h
  | cons name names ih =>
      exact ih (h.mark (hns name List.mem_cons_self)) fun n hn => hns n (List.mem_cons_of_mem _ hn)

/-- The initializer of a variable stands where the variable is declared already. -/
theorem Settled.initializer {Γ : Context} (h : Γ.Settled) {name : Name} (hn : name.IsIdentifier) :
    (Γ.mark name.text false).Ready := by
  refine ⟨?_, h.shaped.mark hn false⟩
  have same : (Γ.mark name.text false).scopes.tail = Γ.scopes.tail :=
    congrArg Context.scopes (pop_mark Γ name.text false)
  rw [same]
  exact h.ready.passed

theorem Settled.inFunction {Γ : Context} (h : Γ.Settled) (k : FunctionContext) : (Γ.inFunction k).Settled :=
  ⟨h.passed.push, h.shaped.push⟩

end Context

end LoxScript
