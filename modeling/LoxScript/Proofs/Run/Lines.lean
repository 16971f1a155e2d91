import LoxScript.Proofs.Lockstep.Access
import LoxScript.Proofs.Tree.Lines

/-!
# Lines of a machine

A machine keeps lines in the functions and methods on its heap. Changing them changes neither what its objects are
nor where its variables are found.
-/

namespace LoxScript

namespace Table

variable {α β : Type} (g : α → β)

def map (t : Table α) : Table β :=
  ⟨t.entries.map fun entry => (entry.1, g entry.2)⟩

theorem find?_map (t : Table α) (name : String) : (t.map g).find? name = (t.find? name).map g := by
  obtain ⟨entries⟩ := t
  unfold map find?
  dsimp only
  induction entries with
  | nil => rfl
  | cons entry entries ih =>
      by_cases h : name = entry.1
      · simp [findEntry, h]
      · simpa [findEntry, h] using ih

theorem insert_map (t : Table α) (name : String) (a : α) : (t.map g).insert name (g a) = (t.insert name a).map g := by
  obtain ⟨entries⟩ := t
  unfold map insert
  refine congrArg mk ?_
  dsimp only
  induction entries with
  | nil => rfl
  | cons entry entries ih =>
      by_cases h : name = entry.1
      · simp [insertEntry, h]
      · simpa [insertEntry, h] using ih

theorem ofList_map (entries : List (String × α)) :
    ofList (entries.map fun entry => (entry.1, g entry.2)) = (ofList entries).map g := by
  have inserted : ∀ t : Table α,
      (entries.map fun entry => (entry.1, g entry.2)).foldl (fun t entry => t.insert entry.1 entry.2) (t.map g) =
        (entries.foldl (fun t entry => t.insert entry.1 entry.2) t).map g := by
    induction entries with
    | nil => exact fun t => rfl
    | cons entry entries ih =>
        intro t
        rw [List.map_cons, List.foldl_cons, List.foldl_cons]
        dsimp only
        rw [insert_map]
        exact ih _
  exact inserted empty

theorem map_map {γ : Type} (h : β → γ) (t : Table α) : (t.map g).map h = t.map (h ∘ g) := by
  simp [map, Function.comp_def]

theorem map_id (t : Table α) : t.map id = t := by
  simp [map]

end Table

variable (f : Int → Int)

/-! ## Changing lines -/

def Closure.mapLines (c : Closure) : Closure :=
  { c with decl := c.decl.mapLines f }

def ClassObject.mapLines (k : ClassObject) : ClassObject :=
  { k with methods := k.methods.map (Closure.mapLines f) }

def Heap.mapLines (h : Heap) : Heap :=
  { h with closures := h.closures.map (Closure.mapLines f), classes := h.classes.map (ClassObject.mapLines f) }

/-- A machine whose functions and methods stand on other lines. -/
def Machine.mapLines (m : Machine) : Machine :=
  { m with heap := m.heap.mapLines f }

def RuntimeError.mapLine (e : RuntimeError) : RuntimeError :=
  { e with line := f e.line }

def Stop.mapLine : Stop → Stop
  | .error e => .error (e.mapLine f)
  | stop => stop

def AccessError.mapLine : AccessError → AccessError
  | .undefined name => .undefined (name.mapLine f)
  | .uninitialized name => .uninitialized (name.mapLine f)
  | e => e

theorem AccessError.stop_mapLine (e : AccessError) : (e.mapLine f).stop = e.stop.mapLine f := by
  cases e <;> rfl

/-! ## Changing lines twice or not at all -/

section Laws

variable (g : Int → Int)

theorem Closure.mapLines_mapLines (c : Closure) : (c.mapLines f).mapLines g = c.mapLines (g ∘ f) := by
  simp [mapLines, FunctionDecl.mapLines_mapLines]

theorem Closure.mapLines_id (c : Closure) : c.mapLines id = c := by
  simp [mapLines, FunctionDecl.mapLines_id]

theorem ClassObject.mapLines_mapLines (k : ClassObject) : (k.mapLines f).mapLines g = k.mapLines (g ∘ f) := by
  simp [mapLines, Table.map_map, Function.comp_def, Closure.mapLines_mapLines]

theorem ClassObject.mapLines_id (k : ClassObject) : k.mapLines id = k := by
  have same : Closure.mapLines id = id := funext Closure.mapLines_id
  simp [mapLines, same, Table.map_id]

theorem Machine.mapLines_mapLines (m : Machine) : (m.mapLines f).mapLines g = m.mapLines (g ∘ f) := by
  simp [mapLines, Heap.mapLines, Function.comp_def, Closure.mapLines_mapLines, ClassObject.mapLines_mapLines]

theorem Machine.mapLines_id (m : Machine) : m.mapLines id = m := by
  have sameClosure : Closure.mapLines id = id := funext Closure.mapLines_id
  have sameClass : ClassObject.mapLines id = id := funext ClassObject.mapLines_id
  simp [mapLines, Heap.mapLines, sameClosure, sameClass]

end Laws

/-! ## Objects -/

namespace Heap

variable (h : Heap)

@[simp] theorem frames_mapLines : (h.mapLines f).frames = h.frames := rfl

@[simp] theorem instances_mapLines : (h.mapLines f).instances = h.instances := rfl

theorem closures_mapLines (id : ClosureId) :
    (h.mapLines f).closures[id]? = h.closures[id]?.map (Closure.mapLines f) :=
  Array.getElem?_map ..

theorem classes_mapLines (id : ClassId) :
    (h.mapLines f).classes[id]? = h.classes[id]?.map (ClassObject.mapLines f) :=
  Array.getElem?_map ..

theorem method?_mapLines (id : ClassId) (name : String) :
    (h.mapLines f).method? id name = (h.method? id name).map (Closure.mapLines f) := by
  induction id using Nat.strongRecOn with
  | ind id ih =>
      rw [method?, method?, classes_mapLines]
      cases h.classes[id]? with
      | none => rfl
      | some k =>
          simp only [Option.map_some, ClassObject.mapLines, Table.find?_map]
          cases k.methods.find? name with
          | some c => rfl
          | none =>
              simp only [Option.map_none]
              cases k.superclass with
              | none => rfl
              | some superclass =>
                  dsimp only
                  split
                  · next older => exact ih superclass older
                  · rfl

theorem initializer?_mapLines (id : ClassId) :
    (h.mapLines f).initializer? id = (h.initializer? id).map (Closure.mapLines f) :=
  h.method?_mapLines f id _

theorem addClosure_mapLines (c : Closure) :
    (h.mapLines f).addClosure (c.mapLines f) = ((h.addClosure c).1, (h.addClosure c).2.mapLines f) := by
  simp [addClosure, mapLines, Array.map_push]

theorem addClass_mapLines (k : ClassObject) :
    (h.mapLines f).addClass (k.mapLines f) = ((h.addClass k).1, (h.addClass k).2.mapLines f) := by
  simp [addClass, mapLines, Array.map_push]

theorem arity?_mapLines (v : Value) : (h.mapLines f).arity? v = h.arity? v := by
  have same : Closure.arity ∘ Closure.mapLines f = Closure.arity := by
    funext c
    simp [Closure.arity, Closure.mapLines, FunctionDecl.params_mapLines]
  cases v with
  | plain | native | instanceRef => rfl
  | closureRef id =>
      simp only [arity?]
      rw [closures_mapLines, Option.map_map, same]
  | classRef id =>
      simp only [arity?]
      rw [initializer?_mapLines]
      cases h.initializer? id with
      | none => rfl
      | some c => exact congrArg some (congrFun same c)

theorem className_mapLines (id : ClassId) : (h.mapLines f).className id = h.className id := by
  unfold className
  rw [classes_mapLines]
  cases h.classes[id]? <;> rfl

theorem display_mapLines (v : Value) : (h.mapLines f).display v = h.display v := by
  cases v with
  | plain | native => rfl
  | closureRef id =>
      simp only [display]
      rw [closures_mapLines]
      cases h.closures[id]? with
      | none => rfl
      | some c => simp [Closure.mapLines, FunctionDecl.name_mapLines]
  | classRef id => exact h.className_mapLines f id
  | instanceRef id => simp [display, className_mapLines]

end Heap

/-! ## Variables -/

theorem Slot.read_mapLine (s : Slot) (n : Name) :
    s.read (n.mapLine f) = (s.read n).mapError (AccessError.mapLine f) := by
  cases s <;> rfl

namespace Frames

variable (F : Frames) (chain : Chain) (n : Name)

theorem holder_mapLine : F.holder chain (n.mapLine f) = (F.holder chain n).mapError (AccessError.mapLine f) := by
  unfold holder
  rw [Name.mapLine_text]
  cases F.holder? n.text chain <;> rfl

/-- An access goes on at the frame that was found. -/
theorem ok_bind {α β : Type} (a : α) (g : α → Except AccessError β) : (Except.ok a >>= g) = g a := rfl

theorem get_mapLine : F.get chain (n.mapLine f) = (F.get chain n).mapError (AccessError.mapLine f) := by
  unfold get
  rw [holder_mapLine, Name.mapLine_text]
  cases F.holder chain n with
  | error e => rfl
  | ok id =>
      have found : (Except.ok id).mapError (AccessError.mapLine f) = .ok id := rfl
      rw [found, ok_bind, ok_bind]
      cases F.find? id n.text with
      | none => rfl
      | some slot => exact slot.read_mapLine f n

theorem ancestor_mapError (distance : Int) :
    (ancestor chain distance).mapError (AccessError.mapLine f) = ancestor chain distance := by
  unfold ancestor
  split <;> rfl

theorem slotAt_mapError (distance : Int) (name : String) :
    (F.slotAt chain distance name).mapError (AccessError.mapLine f) = F.slotAt chain distance name := by
  unfold slotAt
  have same := ancestor_mapError f chain distance
  cases ha : ancestor chain distance with
  | error e =>
      rw [ha] at same
      exact congrArg Except.error (Except.error.inj same)
  | ok id =>
      rw [ok_bind]
      cases F.find? id name <;> rfl

theorem getAt_mapLine (distance : Int) :
    F.getAt chain distance (n.mapLine f) = (F.getAt chain distance n).mapError (AccessError.mapLine f) := by
  unfold getAt
  have same := slotAt_mapError f F chain distance n.text
  rw [Name.mapLine_text]
  cases hs : F.slotAt chain distance n.text with
  | error e =>
      rw [hs] at same
      exact congrArg Except.error (Except.error.inj same).symm
  | ok slot => exact slot.read_mapLine f n

end Frames

end LoxScript
