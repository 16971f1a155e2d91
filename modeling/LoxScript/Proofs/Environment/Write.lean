import Mathlib.Logic.Relation
import LoxScript.Proofs.Environment.Fits
import LoxScript.Proofs.Lockstep.Access

/-!
# Writes to frames

Frames change in three ways: a scope is opened, a variable is given a value, or a variable is declared without one.
What a sequence of writes has done to a variable is told by the last of them that concerns it.
-/

namespace LoxScript

inductive Write where
  /-- A new scope is opened, in which the variables of the frame are bound. -/
  | scope (frame : Frame)
  /-- A variable is bound to a value, or bound anew. -/
  | give (id : FrameId) (name : String) (v : Value)
  /-- A variable is declared that holds no value. -/
  | declare (id : FrameId) (name : String)

namespace Write

def apply (F : Frames) : Write → Frames
  | scope frame => F.push frame
  | give id name v => F.define id name (.value v)
  | declare id name => F.define id name .uninitialized

def Sets (id : FrameId) (name : String) : Write → Prop
  | scope _ => False
  | give id' name' _ | declare id' name' => id' = id ∧ name' = name

/-- Writes that put into a variable what `may` allows. The variables of a new scope have values. -/
def Permitted (may : Frames → FrameId → String → Slot → Prop) (F : Frames) : Write → Prop
  | scope frame => ∀ name, frame.find? name ≠ some .uninitialized
  | give id name v => may F id name (.value v)
  | declare id name => may F id name .uninitialized

theorem permitted_mono {may may' : Frames → FrameId → String → Slot → Prop} {F : Frames} (w : Write)
    (h : ∀ id name slot, may F id name slot → may' F id name slot) (hw : w.Permitted may F) :
    w.Permitted may' F := by
  cases w with
  | scope frame => exact hw
  | give id name v => exact h id name (.value v) hw
  | declare id name => exact h id name .uninitialized hw

end Write

namespace Frames

def Changes (may : Frames → Write → Prop) : Frames → Frames → Prop :=
  Relation.ReflTransGen fun F G => ∃ w, may F w ∧ G = w.apply F

/-- Frames turn into others by writes that are permitted, none of which is to the variable. -/
abbrev Keeps (may : Frames → FrameId → String → Slot → Prop) (id : FrameId) (name : String) : Frames → Frames → Prop :=
  Changes fun F w => w.Permitted may F ∧ ¬ w.Sets id name

def Unset (F : Frames) (id : FrameId) (name : String) : Prop :=
  F.find? id name = some .uninitialized

namespace Changes

variable {may may' : Frames → Write → Prop} {F G H : Frames}

theorem refl (F : Frames) : Changes may F F :=
  Relation.ReflTransGen.refl

theorem single (w : Write) (h : may F w) : Changes may F (w.apply F) :=
  Relation.ReflTransGen.single ⟨w, h, rfl⟩

theorem trans (h : Changes may F G) (h' : Changes may G H) : Changes may F H :=
  Relation.ReflTransGen.trans h h'

theorem mono (h : Changes may F G) (hmay : ∀ F w, may F w → may' F w) : Changes may' F G :=
  Relation.ReflTransGen.mono (fun _ _ ⟨w, hw, eq⟩ => ⟨w, hmay _ w hw, eq⟩) _ _ h

/-- Nothing that is bound is ever unbound. -/
theorem extension (h : Changes may F G) : F.Extends G := by
  induction h with
  | refl => exact .refl F
  | tail _ step ih =>
      obtain ⟨w, _, rfl⟩ := step
      refine ih.trans ?_
      cases w with
      | scope frame => exact .push _ frame
      | give id name v => exact .define _ id name _
      | declare id name => exact .define _ id name _

end Changes

theorem unset_define {F : Frames} {id other : FrameId} {name name' : String} {slot : Slot} :
    (F.define other name' slot).Unset id name ↔
      if id = other ∧ name = name' ∧ other < F.size then slot = .uninitialized else F.Unset id name := by
  unfold Unset
  rw [find?_define]
  split <;> simp

theorem Unset.lt {F : Frames} {id : FrameId} {name : String} (h : F.Unset id name) : id < F.size := by
  by_contra beyond
  simp [Unset, find?, Array.getElem?_eq_none (Nat.le_of_not_lt beyond)] at h

/-- A variable that holds no value held none before the write, or the write declares it. -/
theorem Unset.before {may : Frames → FrameId → String → Slot → Prop} {F : Frames} {w : Write} {id : FrameId}
    {name : String} (permitted : w.Permitted may F) (h : (w.apply F).Unset id name) :
    (F.Unset id name ∧ ¬ w.Sets id name) ∨ w = .declare id name ∧ may F id name .uninitialized := by
  cases w with
  | scope frame =>
      refine .inl ⟨?_, not_false⟩
      unfold Write.apply Unset at h
      rw [find?_push] at h
      split at h
      · exact absurd h (permitted name)
      · exact h
  | give other name' v =>
      have old := unset_define.1 h
      split at old
      · cases old
      · next apart =>
          exact .inl ⟨old, fun same => apart ⟨same.1.symm, same.2.symm, same.1 ▸ old.lt⟩⟩
  | declare other name' =>
      by_cases same : other = id ∧ name' = name
      · obtain ⟨rfl, rfl⟩ := same
        exact .inr ⟨rfl, permitted⟩
      · have old := unset_define.1 h
        rw [if_neg fun apart => same ⟨apart.1.symm, apart.2.1.symm⟩] at old
        exact .inl ⟨old, same⟩

/-- A variable that holds no value held none at first and was not written since, or it was not written since its last
declaration. -/
theorem Changes.unset {may : Frames → FrameId → String → Slot → Prop} {F G : Frames}
    (h : Changes (fun F w => w.Permitted may F) F G) {id : FrameId} {name : String} (unset : G.Unset id name) :
    (F.Unset id name ∧ Keeps may id name F G) ∨
      ∃ H, may H id name .uninitialized ∧ Keeps may id name (H.define id name .uninitialized) G := by
  induction h with
  | refl => exact .inl ⟨unset, .refl F⟩
  | @tail H _ _ step ih =>
      obtain ⟨w, permitted, rfl⟩ := step
      rcases unset.before permitted with ⟨old, apart⟩ | ⟨rfl, declared⟩
      · have last : Keeps may id name H (w.apply H) := .single w ⟨permitted, apart⟩
        rcases ih old with ⟨first, keeps⟩ | ⟨J, declared, keeps⟩
        · exact .inl ⟨first, keeps.trans last⟩
        · exact .inr ⟨J, declared, keeps.trans last⟩
      · exact .inr ⟨H, declared, .refl _⟩

/-! ## Reading a variable that holds no value -/

section Read

variable {F : Frames} {id : FrameId} {chain : Chain} {x : Name}

/-- A variable that holds no value cannot be read by name where it is the nearest of its name. -/
theorem Unset.get (unset : F.Unset id x.text) (nearest : F.holder? x.text chain = some id) :
    F.get chain x = .error (.uninitialized x) := by
  have found : F.find? id x.text = some .uninitialized := unset
  unfold Frames.get holder
  simp [nearest, bind, Except.bind, found, Slot.read]

/-- Nor can it be read by its distance. -/
theorem Unset.getAt (unset : F.Unset id x.text) {d : Nat} (at_ : chain[d]? = some id) :
    F.getAt chain d x = .error (.uninitialized x) := by
  have found : F.slotAt chain d x.text = .ok .uninitialized := slotAt_of_find? at_ unset
  unfold Frames.getAt
  rw [found]
  rfl

def Refers (chain : Chain) (id : FrameId) : Binding → Prop
  | .global => id = Heap.globalFrame
  | .scoped d => chain[d]? = some id

theorem Unset.lookUp (unset : F.Unset id x.text) {ref : Binding} (refers : Refers chain id ref) :
    F.lookUp chain x ref = .error (.uninitialized x) := by
  cases ref with
  | «scoped» d => exact unset.getAt refers
  | global =>
      obtain rfl : id = Heap.globalFrame := refers
      refine unset.get ?_
      have bound : (F.find? Heap.globalFrame x.text).isSome = true := by
        have found : F.find? Heap.globalFrame x.text = some .uninitialized := unset
        rw [found]
        rfl
      rw [Heap.globalChain, holder?, if_pos bound]

end Read

end Frames

end LoxScript
