import LoxScript.Proofs.Environment.Fits
import LoxScript.Proofs.Lockstep.Access

/-!
# Methods at work

A method runs in an environment that begins with frames of its own. The outermost of these binds `this`; further
out lies the environment in which the class of the method was declared. Functions that are declared inside the
method capture this environment and run for the same instance, whenever they are called.
-/

namespace LoxScript

/-- The pieces of which a piece consists. The methods of a class are not among them, because they run for
instances of that class. -/
def Node.parts {ρ : Type} : Node ρ → List (Node ρ)
  | .expr (.literal _) | .expr (.var _ _) | .expr (.this _ _) | .expr (.super _ _ _) => []
  | .expr (.grouping e) | .expr (.unary _ _ e) | .expr (.assign _ _ e) | .expr (.get e _) => [.expr e]
  | .expr (.binary _ _ a b) | .expr (.logical _ _ a b) | .expr (.set a _ b) => [.expr a, .expr b]
  | .expr (.call f _ es) => .expr f :: es.map .expr
  | .stmt (.expression e) | .stmt (.print e) => [.expr e]
  | .stmt (.var _ e) | .stmt (.ret _ e) => e.toList.map .expr
  | .stmt (.block b) => b.map .stmt
  | .stmt (.function d) => d.body.map .stmt
  | .stmt (.classDecl _ _ _) => []
  | .stmt (.ite c t e) => .expr c :: .stmt t :: e.toList.map .stmt
  | .stmt (.loop c b) => [.expr c, .stmt b]

inductive FunctionDecl.Contains {ρ : Type} (d : FunctionDecl ρ) : Node ρ → Prop where
  | body {s} : s ∈ d.body → d.Contains (.stmt s)
  | part {n n'} : d.Contains n → n' ∈ n.parts → d.Contains n'

/-- A method at work: the class object that has it, and the instance that it works for. -/
structure Activation where
  classId : ClassId
  owner : ClassObject
  method : Closure
  object : InstanceId

namespace Heap

inductive Descends (h : Heap) : ClassId → ClassId → Prop where
  | refl (k) : h.Descends k k
  | inherits {id c superclass k} : h.classes[id]? = some c → c.superclass = some superclass →
      h.Descends superclass k → h.Descends id k

/-- Whether a method was made with a class, and not inherited by it. -/
def Made (h : Heap) (k : ClassId) (c : ClassObject) (method : Closure) : Prop :=
  h.classes[k]? = some c ∧ ∃ name, c.methods.find? name = some method

/-- Whether the piece `n`, which runs in the environment `chain`, runs for an activation: `this` is bound in the
frame that is `d` steps out. -/
structure Activates (h : Heap) (chain : Chain) (d : Nat) (n : Node Binding) (a : Activation) : Prop where
  made : h.Made a.classId a.owner a.method
  code : a.method.decl.Contains n
  bound : ∃ frame, chain.drop d = frame :: a.method.chain ∧
    h.frames.find? frame Keyword.thisWord.text = some (.value (.instanceRef a.object))
  descends : ∃ i, h.instances[a.object]? = some i ∧ h.Descends i.classId a.classId

theorem Descends.trans {h : Heap} {k l r : ClassId} (hkl : h.Descends k l) (hlr : h.Descends l r) :
    h.Descends k r := by
  induction hkl with
  | refl => exact hlr
  | inherits hc hs _ ih => exact .inherits hc hs (ih hlr)

/-- At most one class without a superclass lies at the end of a chain of superclasses. -/
theorem Descends.root_unique {h : Heap} {id k k' : ClassId} {c c' : ClassObject} (hk : h.Descends id k)
    (hk' : h.Descends id k') (hc : h.classes[k]? = some c) (hc' : h.classes[k']? = some c')
    (root : c.superclass = none) (root' : c'.superclass = none) : k = k' := by
  induction hk with
  | refl k =>
      cases hk' with
      | refl => rfl
      | inherits hd hs _ =>
          obtain rfl := Option.some.inj (hc.symm.trans hd)
          rw [root] at hs
          cases hs
  | inherits hd hs _ ih =>
      cases hk' with
      | refl =>
          obtain rfl := Option.some.inj (hc'.symm.trans hd)
          rw [root'] at hs
          cases hs
      | inherits hd' hs' hk' =>
          obtain rfl := Option.some.inj (hd.symm.trans hd')
          obtain rfl := Option.some.inj (hs.symm.trans hs')
          exact ih hk' hc

/-- A method that is found for a class was made with the class or with one of its superclasses. -/
theorem made_of_method? {h : Heap} {id : ClassId} {name : String} {method : Closure}
    (found : h.method? id name = some method) : ∃ k c, h.Descends id k ∧ h.Made k c method := by
  induction id using Nat.strongRecOn with
  | ind id ih =>
      rw [method?] at found
      cases hc : h.classes[id]? with
      | none => simp [hc] at found
      | some c =>
          simp only [hc] at found
          cases hm : c.methods.find? name with
          | some m =>
              simp only [hm, Option.some.injEq] at found
              subst found
              exact ⟨id, c, .refl id, hc, name, hm⟩
          | none =>
              simp only [hm] at found
              cases hs : c.superclass with
              | none => simp [hs] at found
              | some superclass =>
                  simp only [hs] at found
                  split at found
                  · next older =>
                      obtain ⟨k, owner, descends, made⟩ := ih superclass older found
                      exact ⟨k, owner, .inherits hc hs descends, made⟩
                  · cases found

namespace Activates

variable {h : Heap} {chain : Chain} {d : Nat} {n : Node Binding} {a : Activation}

theorem part (ha : h.Activates chain d n a) {n' : Node Binding} (hn : n' ∈ n.parts) : h.Activates chain d n' a :=
  ⟨ha.made, .part ha.code hn, ha.bound, ha.descends⟩

/-- The frame that binds `this` is one step further out from a new frame. -/
theorem push (ha : h.Activates chain d n a) (frame : FrameId) : h.Activates (frame :: chain) (d + 1) n a :=
  ⟨ha.made, ha.code, ha.bound, ha.descends⟩

/-- `this` is the instance of the activation. -/
theorem slotAt_this (ha : h.Activates chain d n a) {distance : Int} (hd : distance.toNat = d) :
    h.frames.slotAt chain distance Keyword.thisWord.text = .ok (.value (.instanceRef a.object)) := by
  obtain ⟨frame, drop, bound⟩ := ha.bound
  refine Frames.slotAt_of_find? ?_ bound
  rw [hd, ← List.head?_drop, drop, List.head?_cons]

/-- No two instances are at work in the same environment. -/
theorem object_unique (ha : h.Activates chain d n a) {n' : Node Binding} {b : Activation}
    (hb : h.Activates chain d n' b) : b.object = a.object := by
  have same := (hb.slotAt_this (Int.toNat_natCast d)).symm.trans (ha.slotAt_this (Int.toNat_natCast d))
  injection same with same
  injection same with same
  injection same

end Activates

end Heap

/-! ## Where `this` and `super` are bound -/

/-- Marking a name does not move any other. -/
theorem distance?_mark (Γ : Context) {name other : String} (hne : other ≠ name) (passed : Bool) :
    distance? other (Γ.mark name passed).scopes = distance? other Γ.scopes := by
  obtain ⟨scopes, _, _⟩ := Γ
  cases scopes with
  | nil => rfl
  | cons scope outer => simp [Context.mark, distance?, Table.contains_insert, hne]

namespace Context

/-- In the scopes of a method, `this` is bound `d` scopes out. If the class has a superclass, `super` is bound just
outside it. -/
structure Own (Γ : Context) (d : Nat) (hasSuperclass : Bool) : Prop where
  this : distance? Keyword.thisWord.text Γ.scopes = some d
  super : Γ.classContext = .derived →
    distance? Keyword.superWord.text Γ.scopes = some (d + 1) ∧ hasSuperclass = true

namespace Own

variable {Γ : Context} {d : Nat} {b : Bool}

theorem push (h : Γ.Own d b) : (Γ.push .empty).Own (d + 1) b := by
  refine ⟨?_, fun derived => ⟨?_, (h.super derived).2⟩⟩
  · simp [Context.push, distance?, isOrdinary_empty.1, h.this]
  · simp [Context.push, distance?, isOrdinary_empty.2, (h.super derived).1]

theorem inFunction (h : Γ.Own d b) (kind : FunctionContext) : (Γ.inFunction kind).Own (d + 1) b :=
  ⟨h.push.this, h.push.super⟩

theorem mark (h : Γ.Own d b) {name : Name} (hn : name.IsIdentifier) (passed : Bool) :
    (Γ.mark name.text passed).Own d b := by
  refine ⟨?_, fun derived => ?_⟩
  · rw [distance?_mark Γ (hn.ne_keyword _).symm]
    exact h.this
  · rw [classContext_mark] at derived
    rw [distance?_mark Γ (hn.ne_keyword _).symm]
    exact h.super derived

end Own

/-- The scopes of a class body. -/
theorem own_inClass (Γ : Context) {kind : ClassContext} {b : Bool} (h : kind = .derived → b = true) :
    (Γ.inClass kind b).Own 0 b := by
  refine ⟨?_, fun derived => ?_⟩
  · cases b <;> rfl
  · have same : (Γ.inClass kind b).classContext = kind := by cases b <;> rfl
    obtain rfl := h (same.symm.trans derived)
    exact ⟨rfl, rfl⟩

end Context

end LoxScript
