import LoxScript.Proofs.Colour.Clean
import LoxScript.Proofs.Lockstep.Access

/-!
# Machines without escape characters

In a clean machine there are no escape characters in any value that a variable or a field holds, nor in the code of any
function, nor in the name of any class. So what is shown of its values is clean as well.
-/

namespace LoxScript

/-- A value that is shown without escape characters. -/
def Value.Clean : Value → Prop
  | .plain l => ∀ k ∈ l.atoms, k.Clean
  | .native f => LoxScript.Clean f.name
  | .closureRef _ | .classRef _ | .instanceRef _ => True

def Slot.Clean : Slot → Prop
  | .uninitialized => True
  | .value v => v.Clean

def Frame.Clean (frame : Frame) : Prop :=
  ∀ name slot, frame.find? name = some slot → slot.Clean

structure Heap.Clean (h : Heap) : Prop where
  slots : ∀ id name slot, h.frames.find? id name = some slot → slot.Clean
  closures : ∀ (id : Nat) c, h.closures[id]? = some c → c.decl.Clean
  names : ∀ (id : Nat) k, h.classes[id]? = some k → LoxScript.Clean k.name
  methods : ∀ (id : Nat) k, h.classes[id]? = some k → ∀ name c, k.methods.find? name = some c → c.decl.Clean
  fields : ∀ (id : Nat) i, h.instances[id]? = some i → ∀ name v, i.fields.find? name = some v → v.Clean

structure Machine.Clean (m : Machine) : Prop where
  heap : m.heap.Clean
  printed : ∀ line ∈ m.printed, LoxScript.Clean line

def Stop.Clean : Stop → Prop
  | .returning v => v.Clean
  | .error e => LoxScript.Clean e.message
  | .overflow | .exhausted | .fault _ => True

theorem FunctionDecl.Clean.name {d : FunctionDecl Binding} (h : d.Clean) : d.name.kind.Clean := by
  cases d
  exact h _ List.mem_cons_self

theorem FunctionDecl.Clean.body {d : FunctionDecl Binding} (h : d.Clean) : ∀ s ∈ d.body, s.Clean := by
  cases d
  exact Stmt.forall_clean (List.forall_mem_append.1 (List.forall_mem_cons.1 h).2).2

namespace Heap.Clean

variable {h : Heap} {v : Value}

theorem start : Heap.start.Clean where
  slots id name slot found := by
    unfold Heap.start Frames.find? at found
    cases id with
    | zero =>
        simp only [List.getElem?_toArray, List.getElem?_cons_zero, Option.bind_some, Table.find?_singleton] at found
        split at found
        · cases found
          exact (by decide : LoxScript.Clean Native.clock.name)
        · cases found
    | succ id => simp at found
  closures id c found := by simp [Heap.start] at found
  names id k found := by simp [Heap.start] at found
  methods id k found := by simp [Heap.start] at found
  fields id i found := by simp [Heap.start] at found

theorem define (hh : h.Clean) (id : FrameId) (name : String) {slot : Slot} (hs : slot.Clean) :
    (h.define id name slot).Clean :=
  { hh with
    slots := fun other name' slot' found => by
      unfold Heap.define at found
      rw [Frames.find?_define] at found
      split at found
      · exact Option.some.inj found ▸ hs
      · exact hh.slots other name' slot' found }

theorem addFrame (hh : h.Clean) {frame : Frame} (hf : frame.Clean) : (h.addFrame frame).2.Clean :=
  { hh with
    slots := fun id name slot found => by
      unfold Heap.addFrame at found
      rw [Frames.find?_push] at found
      split at found
      · exact hf name slot found
      · exact hh.slots id name slot found }

theorem addClosure (hh : h.Clean) {c : Closure} (hc : c.decl.Clean) : (h.addClosure c).2.Clean :=
  { hh with
    closures := fun id c' found => by
      simp only [Heap.addClosure, Array.getElem?_push] at found
      split at found
      · exact Option.some.inj found ▸ hc
      · exact hh.closures id c' found }

theorem addClass (hh : h.Clean) {k : ClassObject} (name : LoxScript.Clean k.name)
    (methods : ∀ name c, k.methods.find? name = some c → c.decl.Clean) : (h.addClass k).2.Clean :=
  { hh with
    names := fun id k' found => by
      simp only [Heap.addClass, Array.getElem?_push] at found
      split at found
      · exact Option.some.inj found ▸ name
      · exact hh.names id k' found
    methods := fun id k' found => by
      simp only [Heap.addClass, Array.getElem?_push] at found
      split at found
      · exact Option.some.inj found ▸ methods
      · exact hh.methods id k' found }

theorem addInstance (hh : h.Clean) (k : ClassId) : (h.addInstance k).2.Clean :=
  { hh with
    fields := fun id i found => by
      simp only [Heap.addInstance, Array.getElem?_push] at found
      split at found
      · cases found
        exact nofun
      · exact hh.fields id i found }

theorem setField (hh : h.Clean) (id : InstanceId) (name : String) (hv : v.Clean) : (h.setField id name v).Clean :=
  { hh with
    fields := fun other i found => by
      simp only [Heap.setField, Array.getElem?_modify] at found
      split at found
      · obtain ⟨j, old, rfl⟩ := Option.map_eq_some_iff.1 found
        intro name' u held
        rw [Table.find?_insert] at held
        split at held
        · exact Option.some.inj held ▸ hv
        · exact hh.fields other j old name' u held
      · exact hh.fields other i found }

/-- A method is declared in the class itself or in one that it inherits from. -/
theorem method? (hh : h.Clean) (id : ClassId) {name : String} {c : Closure} (found : h.method? id name = some c) :
    c.decl.Clean := by
  induction id using Nat.strongRecOn with
  | ind id ih =>
      rw [Heap.method?] at found
      split at found
      · cases found
      · next k present =>
          split at found
          · next own =>
              cases found
              exact hh.methods id k present name _ own
          · split at found
            · cases found
            · split at found
              · next older => exact ih _ older found
              · cases found

theorem className (hh : h.Clean) (id : ClassId) : LoxScript.Clean (h.className id) := by
  unfold Heap.className
  cases found : h.classes[id]? with
  | none => exact (by decide : LoxScript.Clean "")
  | some k => exact hh.names id k found

/-- Clean values are shown without escape characters. -/
theorem display (hh : h.Clean) (hv : v.Clean) : LoxScript.Clean (h.display v) := by
  cases v with
  | plain l => exact Literal.clean_text hv
  | native f => exact .append (.append (by decide) hv) (by decide)
  | closureRef id =>
      refine .append (.append (by decide) ?_) (by decide)
      cases found : h.closures[id]? with
      | none => exact (by decide : LoxScript.Clean "")
      | some c => exact (hh.closures id c found).name
  | classRef id => exact hh.className id
  | instanceRef id =>
      refine .append ?_ (by decide)
      cases h.instances[id]? with
      | none => exact (by decide : LoxScript.Clean "")
      | some i => exact hh.className i.classId

end Heap.Clean

namespace Machine.Clean

variable {m : Machine}

theorem start (clock : Nat → Float) : (Machine.start clock).Clean :=
  ⟨Heap.Clean.start, nofun⟩

theorem withHeap (hm : m.Clean) {h : Heap} (hh : h.Clean) : Machine.Clean { m with heap := h } :=
  ⟨hh, hm.printed⟩

theorem withChain (hm : m.Clean) (chain : Chain) : Machine.Clean { m with chain := chain } :=
  ⟨hm.heap, hm.printed⟩

theorem forgetPrinted (hm : m.Clean) : Machine.Clean { m with printed := #[] } :=
  ⟨hm.heap, nofun⟩

end Machine.Clean

end LoxScript
