import LoxScript.Proofs.Environment.Moment
import LoxScript.Proofs.Method.Heap

/-!
# Runs on linked heaps

Whatever a run of well-scoped code does, its heap stays linked and only grows, also if it stops early. One law for
each combinator and for each operation of the machine.
-/

namespace LoxScript

/-- A later moment of a run, in the same environment as an earlier one. -/
structure Machine.Later (m m' : Machine) : Prop where
  chain : m'.chain = m.chain
  linked : m'.heap.Linked
  grows : m.heap.Grows m'.heap

theorem Machine.Later.refl {m : Machine} (hl : m.heap.Linked) : m.Later m :=
  ⟨rfl, hl, .refl m.heap⟩

theorem Machine.Later.trans {m m' m'' : Machine} (h : m.Later m') (h' : m'.Later m'') : m.Later m'' :=
  ⟨h'.chain.trans h.chain, h'.linked, h.grows.trans h'.grows⟩

theorem Machine.Later.addFrame {m : Machine} (hl : m.heap.Linked) (frame : Frame) :
    m.Later { m with heap := (m.heap.addFrame frame).2 } :=
  ⟨rfl, hl.addFrame frame, m.heap.grows_addFrame frame⟩

/-- The stop that marks a breakpoint. Nothing that a machine does of its own accord stops it in this way. -/
def Stop.breakpoint : Stop :=
  .fault .returnOutsideFunction

theorem AccessError.stop_ne_breakpoint (e : AccessError) : e.stop ≠ .breakpoint := by
  cases e <;> nofun

namespace Run

/-- What becomes of a run that was begun in the machine `m`. Its result has the property `A`, or else it stops; a
breakpoint makes it stop only where `Q` is known. -/
inductive Kept {α : Type} (Q : Prop) (m : Machine) (A : α → Machine → Prop) :
    EStateM.Result Stop Machine α → Prop where
  | ok {a m'} : m.Later m' → A a m' → Kept Q m A (.ok a m')
  | error {stop m'} : m.Later m' → (stop = .breakpoint → Q) → Kept Q m A (.error stop m')

namespace Kept

variable {α β : Type} {Q : Prop} {m : Machine} {A : α → Machine → Prop} {B : β → Machine → Prop}

/-! ## Combinators -/

theorem pure (hl : m.heap.Linked) {a : α} (ha : A a m) : Kept Q m A ((Pure.pure a : Run α) m) :=
  .ok (.refl hl) ha

theorem throw (hl : m.heap.Linked) {stop : Stop} (hs : stop ≠ .breakpoint) :
    Kept Q m A ((MonadExcept.throw stop : Run α) m) :=
  .error (.refl hl) fun same => absurd same hs

theorem fail (hl : m.heap.Linked) (cause : RuntimeCause) (lexeme : String) (line : Int) :
    Kept Q m A (Run.fail cause lexeme line m) :=
  .throw hl nofun

theorem failAt (hl : m.heap.Linked) (cause : RuntimeCause) (name : Name) : Kept Q m A (Run.failAt cause name m) :=
  .fail hl cause name.text name.line

/-- A run that was begun later. -/
theorem earlier {m' : Machine} (later : m.Later m') {x : EStateM.Result Stop Machine α} (h : Kept Q m' A x) :
    Kept Q m A x := by
  cases h with
  | ok later' ha => exact .ok (later.trans later') ha
  | error later' hq => exact .error (later.trans later') hq

theorem bind {x : Run α} {f : α → Run β} (hx : Kept Q m A (x m))
    (hf : ∀ a m', m.Later m' → A a m' → Kept Q m' B (f a m')) : Kept Q m B ((x >>= f) m) := by
  show Kept Q m B (EStateM.bind x f m)
  unfold EStateM.bind
  generalize x m = y at hx
  cases hx with
  | ok later ha => exact (hf _ _ later ha).earlier later
  | error later hq => exact .error later hq

/-- The machine comes back to the environment that it left. -/
theorem inChain {chain : Chain} {x : Run α} (hx : Kept Q { m with chain := chain } A (x { m with chain := chain })) :
    Kept Q m (fun _ _ => True) (Run.inChain chain x m) := by
  unfold Run.inChain
  dsimp only
  generalize x { m with chain := chain } = y at hx
  cases hx with
  | ok later _ => exact .ok ⟨rfl, later.linked, later.grows⟩ trivial
  | error later hq => exact .error ⟨rfl, later.linked, later.grows⟩ hq

theorem catchReturn {x : Run Unit} {A : Unit → Machine → Prop} (hx : Kept Q m A (x m)) :
    Kept Q m (fun _ _ => True) (Run.catchReturn x m) := by
  unfold Run.catchReturn
  generalize x m = y at hx
  cases hx with
  | ok later _ => exact .ok later trivial
  | @error stop m' later hq =>
      cases stop with
      | returning v => exact .ok later trivial
      | error e => exact .error later hq
      | overflow => exact .error later hq
      | exhausted => exact .error later hq
      | fault f => exact .error later hq

theorem repeatWhile (hl : m.heap.Linked) {condition : Run Bool} {body : Run Unit}
    (hc : ∀ m', m.Later m' → Kept Q m' (fun _ _ => True) (condition m'))
    (hb : ∀ m', m.Later m' → Kept Q m' (fun _ _ => True) (body m')) (budget : Nat) :
    Kept Q m (fun _ _ => True) (Run.repeatWhile condition body budget m) := by
  induction budget generalizing m with
  | zero => exact .throw hl nofun
  | succ budget ih =>
      refine (hc m (.refl hl)).bind fun b m₁ later₁ _ => ?_
      cases b with
      | false => exact .pure later₁.linked trivial
      | true =>
          refine (hb m₁ later₁).bind fun _ m₂ later₂ _ => ?_
          have later := later₁.trans later₂
          exact ih later.linked (fun m' h => hc m' (later.trans h)) fun m' h => hb m' (later.trans h)

theorem pausing {x : Run Value} {hit : Breakpoint} {n : Node Binding} (hl : m.heap.Linked) (hq : hit n m → Q)
    {A : Value → Machine → Prop} (hx : Kept Q m A (x m)) : Kept Q m A (Run.pausing hit .breakpoint n x m) := by
  by_cases hhit : hit n m
  · rw [pausing_of_hit _ x hhit]
    exact .error (.refl hl) fun _ => hq hhit
  · rw [pausing_of_not_hit _ x hhit]
    exact hx

/-! ## Operations -/

theorem access (hl : m.heap.Linked) (found : Except AccessError α) :
    Kept Q m (fun _ _ => True) (Run.access found m) := by
  cases found with
  | ok a => exact .pure hl trivial
  | error e =>
      rw [access_error]
      exact .error (.refl hl) fun same => absurd same e.stop_ne_breakpoint

theorem operate (hl : m.heap.Linked) (lexeme : String) (line : Int) (result : Except RuntimeCause Value) :
    Kept Q m (fun _ _ => True) (Run.operate lexeme line result m) := by
  cases result with
  | ok v => exact .pure hl trivial
  | error cause => exact .fail hl cause lexeme line

theorem lookUp (hl : m.heap.Linked) (name : Name) (ref : Binding) :
    Kept Q m (fun _ _ => True) (Run.lookUp name ref m) := by
  rw [lookUp_eq]
  exact .access hl _

theorem lookUpOwn (hl : m.heap.Linked) (chain : Chain) (distance : Int) (name : String) :
    Kept Q m (fun _ _ => True) (Run.lookUpOwn chain distance name m) := by
  rw [lookUpOwn_eq]
  refine (Kept.access hl _).bind fun slot m' later _ => ?_
  cases slot with
  | value v => exact .pure later.linked trivial
  | uninitialized => exact .throw later.linked nofun

theorem instanceAt (hl : m.heap.Linked) (id : InstanceId) :
    Kept Q m (fun i m' => m'.heap.instances[id]? = some i) (Run.instanceAt id m) := by
  cases found : m.heap.instances[id]? with
  | some i =>
      rw [instanceAt_of_some found]
      exact .ok (.refl hl) found
  | none =>
      unfold Run.instanceAt
      rw [get_bind, found]
      exact .throw hl nofun

theorem closureAt (hl : m.heap.Linked) (id : ClosureId) :
    Kept Q m (fun c m' => m'.heap.Sited c) (Run.closureAt id m) := by
  cases found : m.heap.closures[id]? with
  | some c =>
      rw [closureAt_of_some found]
      exact .ok (.refl hl) (hl.closures id c found)
  | none =>
      unfold Run.closureAt
      rw [get_bind, found]
      exact .throw hl nofun

theorem define (hl : m.heap.Linked) {name : Name} (hn : name.IsIdentifier) (slot : Slot) :
    Kept Q m (fun _ _ => True) (Run.define name.text slot m) := by
  cases chain : m.chain with
  | nil =>
      unfold Run.define
      rw [get_bind, chain]
      exact .throw hl nofun
  | cons id outer =>
      rw [define_eq _ _ chain]
      exact .ok ⟨rfl, hl.define id hn slot, m.heap.grows_define id hn slot⟩ trivial

theorem store (hl : m.heap.Linked) {name : Name} (hn : name.IsIdentifier) (ref : Binding) (v : Value) :
    Kept Q m (fun _ _ => True) (Run.store name ref v m) := by
  cases found : m.heap.frames.target m.chain name ref with
  | ok id =>
      rw [store_of_ok v found]
      exact .ok ⟨rfl, hl.define id hn _, m.heap.grows_define id hn _⟩ trivial
  | error e =>
      rw [store_of_error v found]
      exact .error (.refl hl) fun same => absurd same e.stop_ne_breakpoint

theorem setField (hl : m.heap.Linked) (id : InstanceId) (name : String) (v : Value) :
    Kept Q m (fun _ _ => True) (modifyHeap (·.setField id name v) m) :=
  .ok ⟨rfl, hl.setField id name v, m.heap.grows_setField id name v⟩ trivial

theorem print (hl : m.heap.Linked) (v : Value) : Kept Q m (fun _ _ => True) (Run.print v m) :=
  .ok ⟨rfl, hl, .refl m.heap⟩ trivial

theorem readClock (hl : m.heap.Linked) : Kept Q m (fun _ _ => True) (Run.readClock m) :=
  .ok ⟨rfl, hl, .refl m.heap⟩ trivial

theorem newClosure (hl : m.heap.Linked) {c : Closure} (hc : m.heap.Sited c) :
    Kept Q m (fun _ _ => True) (Run.newClosure c m) :=
  .ok ⟨rfl, hl.addClosure hc, m.heap.grows_addClosure c⟩ trivial

theorem newClass (hl : m.heap.Linked) {c : ClassObject} (head : FrameId)
    (fitting : ∀ name method, c.methods.find? name = some method → m.heap.Fitting c method)
    (heads : ∀ name method, c.methods.find? name = some method → method.chain.head? = some head)
    (unused : c.superclass.isSome → m.heap.Unused head) : Kept Q m (fun _ _ => True) (Run.newClass c m) :=
  .ok ⟨rfl, hl.addClass fitting heads unused, m.heap.grows_addClass c⟩ trivial

/-- The new frame binds `this` for the activation. -/
theorem bindMethod (hl : m.heap.Linked) {k : ClassId} {c : ClassObject} {method : Closure}
    (made : m.heap.Made k c method) {object : InstanceId} {i : Instance}
    (hi : m.heap.instances[object]? = some i) (descends : m.heap.Descends i.classId k) :
    Kept Q m (fun b m' => m'.heap.Sited b) (Run.bindMethod object method m) := by
  have later := Machine.Later.addFrame hl (.singleton Keyword.thisWord.text (.value (.instanceRef object)))
  refine .ok later ?_
  refine later.linked.sited_bound ⟨later.grows.classes k c made.1, made.2⟩ hi (descends.mono later.grows) ?_
  rw [Heap.find?_addFrame, Table.find?_singleton, if_pos rfl]

end Kept

end Run

end LoxScript
