import LoxScript.Run.Value
import LoxScript.Table
import LoxScript.Tree.Basic

/-!
# Environments

The variables of one activation of a scope form a frame. An environment is a chain of frames, innermost first;
frames are shared between the chains of all functions that captured them, so that a change made through one
chain is seen through every other.

A variable can be reached in two ways: by name, in the nearest frame that binds it, or by the distance of its
frame along the chain.
-/

namespace LoxScript

abbrev FrameId := Nat

/-- The frames of an environment, innermost first. -/
abbrev Chain := List FrameId

abbrev Frame := Table Slot

abbrev Frames := Array Frame

inductive AccessError where
  | undefined (name : Name)
  | uninitialized (name : Name)
  /-- The frame at the given distance does not bind the name. -/
  | unbound (name : String)
  /-- The distance leads this many steps beyond the frame just outside the chain. -/
  | beyond (excess : Nat)
  deriving DecidableEq, Repr

/-- The walk ends just outside the chain. It is asserted that a frame is there, and the assertion fails. -/
@[match_pattern]
abbrev AccessError.noFrame : AccessError := .beyond 0

/-- The walk is to go on from outside the chain, so that the link of a frame that is not there is asked for. -/
@[match_pattern]
abbrev AccessError.noLink (further : Nat) : AccessError := .beyond (further + 1)

def Slot.read (name : Name) : Slot → Except AccessError Value
  | uninitialized => .error (.uninitialized name)
  | value v => .ok v

namespace Frames

def find? (frames : Frames) (id : FrameId) (name : String) : Option Slot :=
  frames[id]?.bind fun frame => frame.find? name

def define (frames : Frames) (id : FrameId) (name : String) (slot : Slot) : Frames :=
  frames.modify id fun frame => frame.insert name slot

def holder? (frames : Frames) (name : String) : Chain → Option FrameId
  | [] => none
  | id :: outer => if (frames.find? id name).isSome then some id else holder? frames name outer

def holder (frames : Frames) (chain : Chain) (name : Name) : Except AccessError FrameId :=
  match frames.holder? name.text chain with
  | some id => .ok id
  | none => .error (.undefined name)

def get (frames : Frames) (chain : Chain) (name : Name) : Except AccessError Value := do
  let id ← frames.holder chain name
  match frames.find? id name.text with
  | some slot => slot.read name
  | none => .error (.undefined name)

def assign (frames : Frames) (chain : Chain) (name : Name) (slot : Slot) : Except AccessError Frames := do
  return frames.define (← frames.holder chain name) name.text slot

/-- The frame that is `distance` steps out. A negative distance stays at the innermost frame. -/
def ancestor (chain : Chain) (distance : Int) : Except AccessError FrameId :=
  match chain[distance.toNat]? with
  | some id => .ok id
  | none => .error (.beyond (distance.toNat - chain.length))

def slotAt (frames : Frames) (chain : Chain) (distance : Int) (name : String) : Except AccessError Slot := do
  let id ← ancestor chain distance
  match frames.find? id name with
  | some slot => .ok slot
  | none => .error (.unbound name)

def getAt (frames : Frames) (chain : Chain) (distance : Int) (name : Name) : Except AccessError Value := do
  (← frames.slotAt chain distance name.text).read name

def assignAt (frames : Frames) (chain : Chain) (distance : Int) (name : String) (slot : Slot) :
    Except AccessError Frames := do
  return frames.define (← ancestor chain distance) name slot

theorem find?_define (frames : Frames) (id other : FrameId) (name name' : String) (slot : Slot) :
    (frames.define id name slot).find? other name' =
      if other = id ∧ name' = name ∧ id < frames.size then some slot else frames.find? other name' := by
  unfold find? define
  rw [Array.getElem?_modify]
  by_cases h : id = other
  · subst h
    by_cases bound : id < frames.size
    · by_cases same : name' = name <;> simp [bound, Table.find?_insert, same]
    · simp [bound]
  · simp [h, Ne.symm h]

theorem size_define (frames : Frames) (id : FrameId) (name : String) (slot : Slot) :
    (frames.define id name slot).size = frames.size := by
  simp [define]

theorem define_define_self (frames : Frames) (id : FrameId) (name : String) (slot slot' : Slot) :
    (frames.define id name slot).define id name slot' = frames.define id name slot' := by
  apply Array.ext_getElem?
  intro other
  unfold define
  simp only [Array.getElem?_modify]
  by_cases h : id = other
  · subst h
    cases frames[id]? with
    | none => simp
    | some frame => simp
  · simp [h]

end Frames

end LoxScript
