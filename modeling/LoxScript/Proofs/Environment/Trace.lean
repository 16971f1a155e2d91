import LoxScript.Proofs.Environment.Moment
import LoxScript.Proofs.Environment.Write

/-!
# What a run leaves behind

However a run ends, the machine is back in the environment in which the run was begun, and its frames have come about
by writes. Each write to a variable is that of a piece which the run comes to, and only a declaration leaves a variable
without a value. One law for each combinator, for each operation of the machine and for each piece that writes;
induction on the depth that is left carries them to whole runs.
-/

namespace LoxScript

/-- What a piece that is about to run in the machine `m` writes to variables, and with which frames. A declaration
writes to the innermost frame, an assignment where its reference leads; what is written is what the initializer or the
right side has evaluated to. The name of a class is bound to nil first, and then to the class. -/
inductive Node.Writes (m : Machine) : Node Binding → Frames → FrameId → String → Slot → Prop where
  | unset {name : Name} {id : FrameId} {outer : Chain} : m.chain = id :: outer →
      Writes m (.stmt (.var name none)) m.heap.frames id name.text .uninitialized
  | var {name : Name} {e : Expr Binding} {iterations depth : Nat} {v : Value} {m₁ : Machine} {id : FrameId}
      {outer : Chain} : Run.evaluate iterations depth e m = .ok v m₁ → m.chain = id :: outer →
      Writes m (.stmt (.var name (some e))) m₁.heap.frames id name.text (.value v)
  | function {decl : FunctionDecl Binding} {id : FrameId} {outer : Chain} : m.chain = id :: outer →
      Writes m (.stmt (.function decl)) m.heap.frames id decl.name.text (.value (.closureRef m.heap.closures.size))
  | className {name : Name} {superclass : Option (Name × Binding)} {methods : List (FunctionDecl Binding)}
      {id : FrameId} {outer : Chain} : m.chain = id :: outer →
      Writes m (.stmt (.classDecl name superclass methods)) m.heap.frames id name.text (.value .nil)
  | classDecl {name : Name} {superclass : Option (Name × Binding)} {methods : List (FunctionDecl Binding)}
      {F : Frames} {id : FrameId} : m.heap.frames.Extends F → F.holder m.chain name = .ok id →
      Writes m (.stmt (.classDecl name superclass methods)) F id name.text (.value (.classRef m.heap.classes.size))
  | assign {name : Name} {ref : Binding} {e : Expr Binding} {iterations depth : Nat} {v : Value} {m₁ : Machine}
      {id : FrameId} : Run.evaluate iterations depth e m = .ok v m₁ →
      m₁.heap.frames.target m.chain name ref = .ok id →
      Writes m (.expr (.assign name ref e)) m₁.heap.frames id name.text (.value v)

abbrev Breakpoint.never : Breakpoint :=
  fun _ _ => False

namespace Run

variable {α β : Type}

/-- The machine that a run leaves, however it ends. -/
def final (x : Run α) (m : Machine) : Machine :=
  match x m with
  | .ok _ m' => m'
  | .error _ m' => m'

theorem final_of_ok {x : Run α} {m m' : Machine} {a : α} (h : x m = .ok a m') : x.final m = m' := by
  unfold final
  rw [h]

theorem final_of_error {x : Run α} {m m' : Machine} {stop : Stop} (h : x m = .error stop m') : x.final m = m' := by
  unfold final
  rw [h]

theorem final_catchReturn (body : Run Unit) (m : Machine) : (catchReturn body).final m = body.final m := by
  unfold final catchReturn
  cases body m with
  | ok _ m' => rfl
  | error stop m' => cases stop <;> rfl

theorem final_inChain (chain : Chain) (body : Run α) (m : Machine) :
    (inChain chain body).final m = { body.final { m with chain := chain } with chain := m.chain } := by
  unfold final inChain
  dsimp only
  cases body { m with chain := chain } <;> rfl

theorem define_of_nil {m : Machine} (name : String) (slot : Slot) (h : m.chain = []) :
    define name slot m = .error (.fault .danglingReference) m := by
  unfold define
  rw [get_bind, h]
  rfl

/-- A run that is interrupted at breakpoints, and the stop with which it ends there. -/
abbrev Interruptible (α : Type) :=
  Breakpoint → Stop → Run α

/-- Begun in the machine `m₀`, the run comes to the moment at which the piece `n` is about to run in the machine
`m`. -/
def Comes (x : Interruptible α) (m₀ : Machine) (n : Node Binding) (m : Machine) : Prop :=
  ∀ stop : Stop, (∀ v, stop ≠ .returning v) → ∃ m', x (fun n' m' => n' = n ∧ m' = m) stop m₀ = .error stop m'

def Makes (x : Interruptible α) (m₀ : Machine) (F : Frames) (id : FrameId) (name : String) (slot : Slot) : Prop :=
  ∃ n m, Comes x m₀ n m ∧ n.Writes m F id name slot

theorem Makes.mono {x : Interruptible α} {y : Interruptible β} {m m' : Machine}
    (h : ∀ n m₁, Comes x m n m₁ → Comes y m' n m₁) (F : Frames) (id : FrameId) (name : String) (slot : Slot)
    (hx : Makes x m F id name slot) : Makes y m' F id name slot := by
  obtain ⟨n, m₁, comes, writes⟩ := hx
  exact ⟨n, m₁, h _ _ comes, writes⟩

/-- A run that is what it is without breakpoints, or ends at one of them. -/
def Stops (x : Interruptible α) : Prop :=
  ∀ hit m, (∀ stop, x hit stop m = x .never .overflow m) ∨ ∃ n m₁, hit n m₁ ∧
    ∀ stop, (∀ v, stop ≠ .returning v) → ∃ m', x hit stop m = .error stop m' ∧ m'.heap = m₁.heap

/-- What is known of a run, wherever the breakpoints are. Slots are written only where `may` allows it. -/
structure Traces (may : Machine → Frames → FrameId → String → Slot → Prop) (x : Interruptible α) : Prop where
  chain : ∀ hit stop m, ((x hit stop).final m).chain = m.chain
  stops : Stops x
  changes : ∀ hit stop m, (∀ v, stop ≠ .returning v) →
    Frames.Changes (fun F w => w.Permitted (may m) F) m.heap.frames ((x hit stop).final m).heap.frames

/-- A run whose writes are those of the pieces that it comes to. -/
abbrev Traced (x : Interruptible α) : Prop :=
  Traces (Makes x) x

/-! ## Combinators -/

theorem Comes.of_bind {x : Interruptible α} {m₀ : Machine} {n : Node Binding} {m : Machine} (h : Comes x m₀ n m)
    (f : Breakpoint → Stop → α → Run β) : Comes (fun hit stop => x hit stop >>= f hit stop) m₀ n m := by
  intro stop other
  obtain ⟨m', ends⟩ := h stop other
  exact ⟨m', bind_of_error _ ends⟩

theorem final_bind_of_ok {x : Run α} {m m' : Machine} {a : α} (f : α → Run β) (h : x m = .ok a m') :
    (x >>= f).final m = (f a).final m' := by
  unfold final
  rw [bind_of_ok _ h]

theorem final_bind_of_error {x : Run α} {m m' : Machine} {stop : Stop} (f : α → Run β) (h : x m = .error stop m') :
    (x >>= f).final m = m' :=
  final_of_error (bind_of_error _ h)

theorem chain_bind {x : Run α} {f : α → Run β} (hx : ∀ m, (x.final m).chain = m.chain)
    (hf : ∀ a m, ((f a).final m).chain = m.chain) (m : Machine) : ((x >>= f).final m).chain = m.chain := by
  have first := hx m
  cases ran : x m with
  | ok a m₁ => rw [final_bind_of_ok _ ran, hf, ← first, final_of_ok ran]
  | error s m₁ => rw [final_bind_of_error _ ran, ← first, final_of_error ran]

theorem changes_bind {may : Frames → Write → Prop} {x : Run α} {f : α → Run β} {m : Machine}
    (first : Frames.Changes may m.heap.frames (x.final m).heap.frames)
    (second : ∀ a m₁, x m = .ok a m₁ → Frames.Changes may m₁.heap.frames ((f a).final m₁).heap.frames) :
    Frames.Changes may m.heap.frames ((x >>= f).final m).heap.frames := by
  cases ran : x m with
  | error s m₁ =>
      rw [final_of_error ran] at first
      rwa [final_bind_of_error _ ran]
  | ok a m₁ =>
      rw [final_of_ok ran] at first
      rw [final_bind_of_ok _ ran]
      exact first.trans (second a m₁ ran)

namespace Stops

variable {x : Interruptible α}

/-- What has run to its end has met with no breakpoint. -/
theorem never_of_ok (hx : Stops x) {hit : Breakpoint} {stop : Stop} (other : ∀ v, stop ≠ .returning v)
    {m m₁ : Machine} {a : α} (ran : x hit stop m = .ok a m₁) : x .never .overflow m = .ok a m₁ := by
  cases hx hit m with
  | inl same => rw [← same stop, ran]
  | inr found =>
      obtain ⟨_, _, _, ends⟩ := found
      obtain ⟨_, ends, _⟩ := ends stop other
      rw [ran] at ends
      cases ends

/-- A breakpoint in the first part ends the whole; otherwise it is up to the second part. -/
theorem bind {f : Breakpoint → Stop → α → Run β} (hx : Stops x) (hf : ∀ a, Stops fun hit stop => f hit stop a) :
    Stops fun hit stop => x hit stop >>= f hit stop := by
  intro hit m
  dsimp only
  cases hx hit m with
  | inl same =>
      cases ran : x .never .overflow m with
      | error s m₁ =>
          refine .inl fun stop => ?_
          rw [bind_of_error _ ((same stop).trans ran), bind_of_error _ ran]
      | ok a m₁ =>
          have goesOn : ∀ stop, (x hit stop >>= f hit stop) m = f hit stop a m₁ := fun stop =>
            bind_of_ok _ ((same stop).trans ran)
          simp only [goesOn, bind_of_ok _ ran]
          exact hf a hit m₁
  | inr found =>
      obtain ⟨n, m₁, at_, ends⟩ := found
      refine .inr ⟨n, m₁, at_, fun stop other => ?_⟩
      obtain ⟨m', ends, heap⟩ := ends stop other
      exact ⟨m', bind_of_error _ ends, heap⟩

/-- What a run comes to after it has run to the end of its first part. -/
theorem comes_bind (hx : Stops x) {f : Breakpoint → Stop → α → Run β} {hit : Breakpoint} {stop : Stop}
    (other : ∀ v, stop ≠ .returning v) {m₀ m₁ m : Machine} {a : α} {n : Node Binding}
    (ran : x hit stop m₀ = .ok a m₁) (h : Comes (fun hit stop => f hit stop a) m₁ n m) :
    Comes (fun hit stop => x hit stop >>= f hit stop) m₀ n m := by
  have plain := hx.never_of_ok other ran
  intro stop' other'
  cases hx (fun n' m' => n' = n ∧ m' = m) m₀ with
  | inl same =>
      obtain ⟨m', ends⟩ := h stop' other'
      exact ⟨m', (bind_of_ok _ ((same stop').trans plain)).trans ends⟩
  | inr found =>
      obtain ⟨_, _, _, ends⟩ := found
      obtain ⟨m', ends, _⟩ := ends stop' other'
      exact ⟨m', bind_of_error _ ends⟩

end Stops

namespace Traced

variable {x : Interruptible α}

theorem bind {f : Breakpoint → Stop → α → Run β} (hx : Traced x) (hf : ∀ a, Traced fun hit stop => f hit stop a) :
    Traced fun hit stop => x hit stop >>= f hit stop where
  chain hit stop := chain_bind (hx.chain hit stop) fun a => (hf a).chain hit stop
  stops := hx.stops.bind fun a => (hf a).stops
  changes hit stop m other := by
    refine changes_bind ((hx.changes hit stop m other).mono fun F w => w.permitted_mono ?_) fun a m₁ ran =>
      ((hf a).changes hit stop m₁ other).mono fun F w => w.permitted_mono ?_
    · exact Makes.mono (fun n m₁ h => h.of_bind f) F
    · exact Makes.mono (fun n m₂ h => hx.stops.comes_bind other ran h) F

theorem inChain {chain : Chain} (hx : Traced x) : Traced fun hit stop => Run.inChain chain (x hit stop) where
  chain hit stop m := by rw [final_inChain]
  stops hit m := by
    dsimp only
    rcases hx.stops hit { m with chain := chain } with same | ⟨n, m₁, at_, ends⟩
    · refine .inl fun stop => ?_
      unfold Run.inChain
      dsimp only
      rw [same]
    · refine .inr ⟨n, m₁, at_, fun stop other => ?_⟩
      obtain ⟨m', ends, heap⟩ := ends stop other
      exact ⟨_, inChain_of_error ends, heap⟩
  changes hit stop m other := by
    rw [final_inChain]
    refine (hx.changes hit stop { m with chain := chain } other).mono fun F w => w.permitted_mono ?_
    refine Makes.mono (fun n m₁ comes stop other => ?_) F
    obtain ⟨m', ends⟩ := comes stop other
    exact ⟨_, inChain_of_error ends⟩

theorem catchReturn {x : Interruptible Unit} (hx : Traced x) :
    Traced fun hit stop => Run.catchReturn (x hit stop) where
  chain hit stop m := by rw [final_catchReturn, hx.chain]
  stops hit m := by
    dsimp only
    rcases hx.stops hit m with same | ⟨n, m₁, at_, ends⟩
    · refine .inl fun stop => ?_
      unfold Run.catchReturn
      rw [same]
    · refine .inr ⟨n, m₁, at_, fun stop other => ?_⟩
      obtain ⟨m', ends, heap⟩ := ends stop other
      exact ⟨m', catchReturn_of_error ends other, heap⟩
  changes hit stop m other := by
    rw [final_catchReturn]
    refine (hx.changes hit stop m other).mono fun F w => w.permitted_mono ?_
    refine Makes.mono (fun n m₁ comes stop other => ?_) F
    obtain ⟨m', ends⟩ := comes stop other
    exact ⟨m', catchReturn_of_error ends other⟩

/-! ## Operations -/

variable {c : Run α}

/-- Operations take no notice of breakpoints. Those that are not a piece's own writes only open scopes. -/
theorem operation (chain : ∀ m, (c.final m).chain = m.chain)
    (changes : ∀ m, Frames.Changes (fun F w => w.Permitted (fun _ _ _ _ => False) F) m.heap.frames
      (c.final m).heap.frames) : Traced fun _ _ => c where
  chain _ _ := chain
  stops _ _ := .inl fun _ => rfl
  changes _ _ m _ := (changes m).mono fun _ w => w.permitted_mono fun _ _ _ => False.elim

theorem quiet (chain : ∀ m, (c.final m).chain = m.chain) (frames : ∀ m, (c.final m).heap.frames = m.heap.frames) :
    Traced fun _ _ => c :=
  operation chain fun m => by
    rw [frames]
    exact .refl _

theorem pure (a : α) : Traced fun _ _ => (Pure.pure a : Run α) :=
  quiet (fun _ => rfl) fun _ => rfl

theorem throw (stop : Stop) : Traced fun _ _ => (MonadExcept.throw stop : Run α) :=
  quiet (fun _ => rfl) fun _ => rfl

theorem get : Traced fun _ _ => (MonadState.get : Run Machine) :=
  quiet (fun _ => rfl) fun _ => rfl

theorem failAt (cause : RuntimeCause) (name : Name) : Traced fun _ _ => (Run.failAt cause name : Run α) :=
  throw _

theorem access (found : Except AccessError α) : Traced fun _ _ => Run.access found := by
  cases found with
  | ok a => exact pure a
  | error e => cases e <;> exact throw _

theorem operate (lexeme : String) (line : Int) (result : Except RuntimeCause Value) :
    Traced fun _ _ => Run.operate lexeme line result := by
  cases result with
  | ok v => exact pure v
  | error cause => exact throw _

theorem print (v : Value) : Traced fun _ _ => Run.print v :=
  quiet (fun _ => rfl) fun _ => rfl

theorem readClock : Traced fun _ _ => Run.readClock :=
  quiet (fun _ => rfl) fun _ => rfl

theorem setField (id : InstanceId) (name : String) (v : Value) :
    Traced fun _ _ => modifyHeap (·.setField id name v) :=
  quiet (fun _ => rfl) fun _ => rfl

theorem newClosure (c : Closure) : Traced fun _ _ => Run.newClosure c :=
  quiet (fun _ => rfl) fun _ => rfl

theorem newInstance (id : ClassId) : Traced fun _ _ => Run.newInstance id :=
  quiet (fun _ => rfl) fun _ => rfl

theorem newFrame {frame : Frame} (values : ∀ name, frame.find? name ≠ some .uninitialized) :
    Traced fun _ _ => Run.newFrame frame :=
  operation (fun _ => rfl) fun _ => .single (.scope frame) values

theorem lookUp (name : Name) (ref : Binding) : Traced fun _ _ => Run.lookUp name ref := by
  refine .bind .get fun m => ?_
  cases ref with
  | global => exact access _
  | «scoped» distance => exact access _

theorem lookUpOwn (chain : Chain) (distance : Int) (name : String) :
    Traced fun _ _ => Run.lookUpOwn chain distance name := by
  refine .bind .get fun m => .bind (access _) fun slot => ?_
  cases slot with
  | value v => exact pure v
  | uninitialized => exact throw _

theorem instanceAt (id : InstanceId) : Traced fun _ _ => Run.instanceAt id := by
  refine .bind .get fun m => ?_
  cases m.heap.instances[id]? with
  | some i => exact pure i
  | none => exact throw _

theorem closureAt (id : ClosureId) : Traced fun _ _ => Run.closureAt id := by
  refine .bind .get fun m => ?_
  cases m.heap.closures[id]? with
  | some c => exact pure c
  | none => exact throw _

/-- The variables that the machine itself binds have values. -/
theorem singleton_ne_uninitialized (name : String) (v : Value) (other : String) :
    (Table.singleton name (Slot.value v)).find? other ≠ some .uninitialized := by
  rw [Table.find?_singleton]
  split <;> nofun

theorem ownFrame (name : String) (v : Value) : Traced fun _ _ => Run.newFrame (.singleton name (.value v)) :=
  newFrame (singleton_ne_uninitialized name v)

theorem bindMethod (id : InstanceId) (method : Closure) : Traced fun _ _ => Run.bindMethod id method :=
  .bind (ownFrame _ _) fun _ => pure _

theorem getProperty (object : Value) (name : Name) : Traced fun _ _ => Run.getProperty object name := by
  cases object with
  | instanceRef id =>
      refine .bind (instanceAt id) fun i => ?_
      cases i.fields.find? name.text with
      | some v => exact pure v
      | none =>
          refine .bind .get fun m => ?_
          cases m.heap.method? i.classId name.text with
          | some method => exact .bind (bindMethod id method) fun c => newClosure c
          | none => exact failAt _ name
  | plain | native | closureRef | classRef => exact failAt _ name

theorem getSuper (method : Name) (ref : Binding) : Traced fun _ _ => Run.getSuper method ref := by
  cases ref with
  | global => exact throw _
  | «scoped» distance =>
      refine .bind .get fun m => .bind (lookUpOwn _ _ _) fun superclass => .bind (lookUpOwn _ _ _) fun object => ?_
      split
      · next k id =>
          refine .bind .get fun m => ?_
          cases m.heap.method? k method.text with
          | some found => exact .bind (bindMethod id found) fun c => newClosure c
          | none => exact failAt _ method
      · exact throw _

theorem superclassOf (o : Option (Name × Binding)) : Traced fun _ _ => Run.superclassOf o := by
  cases o with
  | none => exact pure none
  | some superclass =>
      obtain ⟨name, ref⟩ := superclass
      refine .bind (lookUp name ref) fun v => ?_
      cases v with
      | classRef id => exact pure (some id)
      | plain | native | closureRef | instanceRef => exact failAt _ name

theorem methodChain (superclass : Option ClassId) : Traced fun _ _ => Run.methodChain superclass := by
  refine .bind .get fun m => ?_
  cases superclass with
  | none => exact pure _
  | some id => exact .bind (ownFrame _ _) fun frame => pure _

/-! ## One layer of evaluation -/

theorem repeatWhile {condition : Interruptible Bool} {body : Interruptible Unit} (hc : Traced condition)
    (hb : Traced body) (budget : Nat) :
    Traced fun hit stop => Run.repeatWhile (condition hit stop) (body hit stop) budget := by
  induction budget with
  | zero => exact throw .exhausted
  | succ budget ih =>
      refine .bind hc fun b => ?_
      cases b with
      | false => exact pure ()
      | true => exact .bind hb fun _ => ih

section Step

variable {evaluate : Breakpoint → Stop → Expr Binding → Run Value}
  {execute : Breakpoint → Stop → Stmt Binding → Run Value}

theorem evaluateAll (he : ∀ e, Traced fun hit stop => evaluate hit stop e) (es : List (Expr Binding)) :
    Traced fun hit stop => Run.evaluateAll (evaluate hit stop) es := by
  induction es with
  | nil => exact pure []
  | cons e es ih => exact .bind (he e) fun v => .bind ih fun vs => pure (v :: vs)

variable (hs : ∀ s, Traced fun hit stop => execute hit stop s)

include hs

theorem executeAll (ss : List (Stmt Binding)) : Traced fun hit stop => Run.executeAll (execute hit stop) ss := by
  induction ss with
  | nil => exact pure ()
  | cons s ss ih => exact .bind (hs s) fun _ => ih

theorem executeBlock (chain : Chain) {frame : Frame} (values : ∀ name, frame.find? name ≠ some .uninitialized)
    (body : List (Stmt Binding)) :
    Traced fun hit stop => Run.executeBlock (execute hit stop) chain frame body :=
  .bind (newFrame values) fun _ => inChain (executeAll hs body)

/-- The parameters of a function have values. -/
theorem callClosure (c : Closure) (arguments : List Value) :
    Traced fun hit stop => Run.callClosure (execute hit stop) c arguments := by
  have values : ∀ name, (Table.ofList ((c.decl.params.map Name.text).zip (arguments.map Slot.value))).find? name ≠
      some .uninitialized := by
    intro name found
    have given := List.of_mem_zip (Table.mem_of_find?_ofList found)
    obtain ⟨v, _, same⟩ := List.mem_map.1 given.2
    cases same
  refine .bind (catchReturn (executeBlock hs c.chain values c.decl.body)) fun result => ?_
  cases c.isInitializer with
  | true => exact lookUpOwn _ _ _
  | false => exact pure _

theorem instantiate (id : ClassId) (arguments : List Value) :
    Traced fun hit stop => Run.instantiate (execute hit stop) id arguments := by
  refine .bind (newInstance id) fun object => .bind .get fun m => ?_
  cases m.heap.initializer? id with
  | none => exact pure _
  | some method =>
      exact .bind (bindMethod object method) fun bound => .bind (callClosure hs bound arguments) fun _ => pure _

theorem call (callee : Value) (arguments : List Value) (line : Int) :
    Traced fun hit stop => Run.call (execute hit stop) callee arguments line := by
  refine .bind .get fun m => ?_
  cases m.heap.arity? callee with
  | none => exact throw _
  | some arity =>
      dsimp only
      split
      · exact throw _
      · cases callee with
        | native f =>
            cases f with
            | clock => exact readClock
            | idle => exact pure Value.nil
        | closureRef id => exact .bind (closureAt id) fun c => callClosure hs c arguments
        | classRef id => exact instantiate hs id arguments
        | plain | instanceRef => exact throw _

variable (he : ∀ e, Traced fun hit stop => evaluate hit stop e)

include he

/-- Assignments apart, one layer is traced if the layers below are. -/
theorem evaluateStep {e : Expr Binding} (gives : ∀ name ref value, e ≠ .assign name ref value) :
    Traced fun hit stop => Run.evaluateStep (evaluate hit stop) (execute hit stop) e := by
  cases e with
  | literal v => exact pure (Value.plain v)
  | grouping inner => exact he inner
  | unary op line operand => exact .bind (he operand) fun v => operate _ line _
  | binary op line left right => exact .bind (he left) fun l => .bind (he right) fun r => operate _ line _
  | logical op line left right =>
      refine .bind (he left) fun l => ?_
      split
      · exact pure l
      · exact he right
  | var name ref => exact lookUp name ref
  | assign name ref value => exact absurd rfl (gives name ref value)
  | call callee line arguments =>
      exact .bind (he callee) fun f => .bind (evaluateAll he arguments) fun vs => call hs f vs line
  | get object name => exact .bind (he object) fun o => getProperty o name
  | set object name value =>
      refine .bind (he object) fun o => ?_
      cases o with
      | instanceRef id => exact .bind (he value) fun v => .bind (setField id name.text v) fun _ => pure v
      | plain | native | closureRef | classRef => exact failAt _ name
  | this line ref => exact lookUp _ ref
  | super line method ref => exact getSuper method ref

/-- Declarations apart, one layer is traced if the layers below are. -/
theorem executeStep (iterations : Nat) {s : Stmt Binding} (gives : s.declared? = none) :
    Traced fun hit stop => Run.executeStep iterations (evaluate hit stop) (execute hit stop) s := by
  cases s with
  | expression e => exact he e
  | print e => exact .bind (he e) fun v => .bind (print v) fun _ => pure Value.nil
  | var | function | classDecl => cases gives
  | block body =>
      have values : ∀ name, (Table.empty : Frame).find? name ≠ some .uninitialized := fun _ => nofun
      exact .bind .get fun m => .bind (executeBlock hs m.chain values body) fun _ => pure Value.nil
  | ite condition thenBranch elseBranch =>
      refine .bind (he condition) fun c => ?_
      dsimp only
      split
      · exact .bind (hs thenBranch) fun _ => pure Value.nil
      · cases elseBranch with
        | none => exact pure Value.nil
        | some s => exact .bind (hs s) fun _ => pure Value.nil
  | ret line value =>
      cases value with
      | none => exact throw _
      | some e => exact .bind (he e) fun v => throw _
  | loop condition body =>
      have test : Traced fun hit stop => (do return (← evaluate hit stop condition).isTruthy : Run Bool) :=
        .bind (he condition) fun v => pure _
      have once : Traced fun hit stop => (do let _ ← execute hit stop body : Run Unit) :=
        .bind (hs body) fun _ => pure ()
      exact .bind (repeatWhile test once iterations) fun _ => pure Value.nil

end Step

/-! ## Whole runs -/

/-- A run comes to the piece with which it begins. -/
theorem comes_pausing (x : Interruptible Value) (n : Node Binding) (m : Machine) :
    Comes (fun hit stop => pausing hit stop n (x hit stop)) m n m :=
  fun stop _ => ⟨m, pausing_of_hit stop _ ⟨rfl, rfl⟩⟩

theorem Comes.pausing {x : Interruptible Value} {m₀ m : Machine} {n : Node Binding} (h : Comes x m₀ n m)
    (n₀ : Node Binding) : Comes (fun hit stop => Run.pausing hit stop n₀ (x hit stop)) m₀ n m := by
  intro stop other
  by_cases begun : n₀ = n ∧ m₀ = m
  · exact ⟨m₀, pausing_of_hit stop _ begun⟩
  · obtain ⟨m', ends⟩ := h stop other
    exact ⟨m', (pausing_of_not_hit stop _ begun).trans ends⟩

theorem final_pausing_of_hit {hit : Breakpoint} (stop : Stop) {n : Node Binding} (x : Run Value) {m : Machine}
    (h : hit n m) : (Run.pausing hit stop n x).final m = m :=
  final_of_error (pausing_of_hit stop x h)

theorem final_pausing_of_not_hit {hit : Breakpoint} (stop : Stop) {n : Node Binding} (x : Run Value) {m : Machine}
    (h : ¬ hit n m) : (Run.pausing hit stop n x).final m = x.final m := by
  unfold final
  rw [pausing_of_not_hit stop x h]

/-- A breakpoint before a run. -/
theorem pausing {x : Interruptible Value} {n : Node Binding}
    (hx : Traces (Makes fun hit stop => Run.pausing hit stop n (x hit stop)) x) :
    Traced fun hit stop => Run.pausing hit stop n (x hit stop) where
  chain hit stop m := by
    by_cases begun : hit n m
    · rw [final_pausing_of_hit _ _ begun]
    · rw [final_pausing_of_not_hit _ _ begun, hx.chain]
  stops hit m := by
    dsimp only
    by_cases begun : hit n m
    · exact .inr ⟨n, m, begun, fun stop _ => ⟨m, pausing_of_hit stop _ begun, rfl⟩⟩
    · have passed : ∀ stop, Run.pausing hit stop n (x hit stop) m = x hit stop m := fun stop =>
        pausing_of_not_hit stop _ begun
      have never : Run.pausing .never .overflow n (x .never .overflow) m = x .never .overflow m :=
        pausing_of_not_hit _ _ id
      simp only [passed, never]
      exact hx.stops hit m
  changes hit stop m other := by
    by_cases begun : hit n m
    · rw [final_pausing_of_hit _ _ begun]
      exact .refl _
    · rw [final_pausing_of_not_hit _ _ begun]
      exact hx.changes hit stop m other

theorem paused {x : Interruptible Value} (hx : Traced x) (n : Node Binding) :
    Traced fun hit stop => Run.pausing hit stop n (x hit stop) :=
  pausing { hx with changes := fun hit stop m other => (hx.changes hit stop m other).mono fun F w =>
    w.permitted_mono (Makes.mono (fun _ _ h => Comes.pausing h n) F) }

/-! ### Pieces that write -/

/-- A piece that runs its parts to the end, and then writes. -/
theorem writing {x : Interruptible α} {f : α → Run Value} {n : Node Binding} (hx : Traced x)
    (chain : ∀ a m, ((f a).final m).chain = m.chain)
    (writes : ∀ m a m₁, x .never .overflow m = .ok a m₁ → m₁.chain = m.chain →
      Frames.Changes (fun F w => w.Permitted (n.Writes m) F) m₁.heap.frames ((f a).final m₁).heap.frames) :
    Traced fun hit stop => Run.pausing hit stop n (x hit stop >>= f) := by
  refine pausing ⟨fun hit stop => chain_bind (hx.chain hit stop) chain, hx.stops.bind fun a _ _ => .inl fun _ => rfl,
    fun hit stop m other => changes_bind ?_ fun a m₁ ran => ?_⟩
  · refine (hx.changes hit stop m other).mono fun F w => w.permitted_mono ?_
    exact Makes.mono (fun n' m₁ h => Comes.pausing (h.of_bind fun _ _ => f) n) F
  · have same := hx.chain hit stop m
    rw [final_of_ok ran] at same
    refine (writes m a m₁ (hx.stops.never_of_ok other ran) same).mono fun F w => w.permitted_mono ?_
    exact fun id name slot wrote => ⟨n, m, comes_pausing _ _ m, wrote⟩

theorem chain_define (name : String) (slot : Slot) (m : Machine) :
    ((Run.define name slot).final m).chain = m.chain := by
  cases inside : m.chain with
  | nil => rw [final_of_error (define_of_nil name slot inside), inside]
  | cons id outer =>
      rw [final_of_ok (define_eq name slot inside)]
      exact inside

theorem changes_define {may : Frames → FrameId → String → Slot → Prop} {name : String} {slot : Slot} {m : Machine}
    (h : ∀ id outer, m.chain = id :: outer → may m.heap.frames id name slot) :
    Frames.Changes (fun F w => w.Permitted may F) m.heap.frames ((Run.define name slot).final m).heap.frames := by
  cases inside : m.chain with
  | nil =>
      rw [final_of_error (define_of_nil name slot inside)]
      exact .refl _
  | cons id outer =>
      rw [final_of_ok (define_eq name slot inside)]
      cases slot with
      | value v => exact .single (.give id name v) (h id outer inside)
      | uninitialized => exact .single (.declare id name) (h id outer inside)

theorem chain_store (name : Name) (ref : Binding) (v : Value) (m : Machine) :
    ((Run.store name ref v).final m).chain = m.chain := by
  cases found : m.heap.frames.target m.chain name ref with
  | ok id => rw [final_of_ok (store_of_ok v found)]; rfl
  | error e => rw [final_of_error (store_of_error v found)]

theorem changes_store {may : Frames → FrameId → String → Slot → Prop} {name : Name} {ref : Binding} {v : Value}
    {m : Machine} (h : ∀ id, m.heap.frames.target m.chain name ref = .ok id →
      may m.heap.frames id name.text (.value v)) :
    Frames.Changes (fun F w => w.Permitted may F) m.heap.frames ((Run.store name ref v).final m).heap.frames := by
  cases found : m.heap.frames.target m.chain name ref with
  | ok id =>
      rw [final_of_ok (store_of_ok v found)]
      exact .single (.give id name.text v) (h id found)
  | error e =>
      rw [final_of_error (store_of_error v found)]
      exact .refl _

section Writing

variable {evaluate : Breakpoint → Stop → Expr Binding → Run Value}
  {execute : Breakpoint → Stop → Stmt Binding → Run Value} {iterations depth : Nat}

/-- A declaration without an initializer leaves its variable without a value. -/
theorem declared (name : Name) : Traced fun hit stop => Run.pausing hit stop (.stmt (.var name none))
    (Run.executeStep iterations (evaluate hit stop) (execute hit stop) (.var name none)) := by
  refine writing (f := fun _ => do Run.define name.text .uninitialized; return .nil) (pure ())
    (fun _ => chain_bind (chain_define _ _) fun _ _ => rfl) fun m a m₁ ran _ => ?_
  cases ran
  exact changes_bind (changes_define fun _ _ => .unset) fun _ _ _ => .refl _

/-- A function is bound in the frame in which it is declared. -/
theorem function (decl : FunctionDecl Binding) : Traced fun hit stop => Run.pausing hit stop (.stmt (.function decl))
    (Run.executeStep iterations (evaluate hit stop) (execute hit stop) (.function decl)) := by
  refine writing (x := fun _ _ => do Run.newClosure ⟨decl, (← MonadState.get).chain, false⟩)
    (f := fun v => do Run.define decl.name.text (.value v); return .nil) (.bind .get fun m => newClosure _)
    (fun _ => chain_bind (chain_define _ _) fun _ _ => rfl) fun m a m₁ ran _ => ?_
  cases ran
  exact changes_bind (changes_define fun _ _ here => .function (m := m) here) fun _ _ _ => .refl _

/-- Making a class opens at most a scope. -/
theorem makeClass_opens (name : Name) (superclass : Option ClassId) (methods : List (FunctionDecl Binding))
    (m : Machine) : ∃ m', makeClass name superclass methods m = .ok (.classRef m.heap.classes.size) m' ∧
      m'.chain = m.chain ∧
      Frames.Changes (fun F w => w.Permitted (fun _ _ _ _ => False) F) m.heap.frames m'.heap.frames := by
  cases superclass with
  | none => exact ⟨_, rfl, rfl, .refl _⟩
  | some k => exact ⟨_, rfl, rfl, .single (.scope _) (singleton_ne_uninitialized _ (.classRef k))⟩

theorem chain_declareClass (name : Name) (superclass : Option (Name × Binding))
    (methods : List (FunctionDecl Binding)) (m : Machine) :
    ((Run.declareClass name superclass methods).final m).chain = m.chain :=
  chain_bind ((superclassOf superclass).chain .never .overflow) (fun _ => chain_bind (chain_define _ _) fun _ =>
    chain_bind ((methodChain _).chain .never .overflow) fun _ => chain_bind (fun _ => rfl) fun _ =>
    chain_bind (fun _ => rfl) fun _ => chain_bind ((access _).chain .never .overflow) fun _ _ => rfl) m

/-- The name of a class is bound to nil, and to the class once it is made. -/
theorem changes_declareClass (name : Name) (superclass : Option (Name × Binding))
    (methods : List (FunctionDecl Binding)) (m : Machine) :
    Frames.Changes (fun F w => w.Permitted (Node.Writes m (.stmt (.classDecl name superclass methods))) F)
      m.heap.frames ((Run.declareClass name superclass methods).final m).heap.frames := by
  rw [declareClass_eq_makeClass]
  rcases superclassOf_cases superclass m with ⟨s, hs⟩ | ⟨stop, hs⟩
  · rw [final_bind_of_ok _ hs]
    cases inside : m.chain with
    | nil =>
        rw [final_bind_of_error _ (define_of_nil _ _ inside)]
        exact .refl _
    | cons id outer =>
        rw [final_bind_of_ok _ (define_eq _ _ inside)]
        obtain ⟨m', made, chain, opens⟩ := makeClass_opens name s methods (stored m id name.text (.value .nil))
        have toNil : Frames.Changes
            (fun F w => w.Permitted (Node.Writes m (.stmt (.classDecl name superclass methods))) F) m.heap.frames
            (stored m id name.text (.value .nil)).heap.frames := .single (.give id name.text .nil) (.className inside)
        rw [final_bind_of_ok _ made]
        have grown := toNil.trans (opens.mono fun _ w => w.permitted_mono fun _ _ _ => False.elim)
        have read : (MonadState.get : Run Machine) m' = .ok m' m' := rfl
        refine grown.trans ?_
        rw [final_bind_of_ok _ read]
        cases found : m'.heap.frames.holder m'.chain name with
        | error e =>
            rw [final_bind_of_error _ (access_error e m')]
            exact .refl _
        | ok k =>
            rw [final_bind_of_ok _ (access_ok k m')]
            rw [chain] at found
            exact .single (.give k name.text _) (.classDecl grown.extension found)
  · rw [final_bind_of_error _ hs]
    exact .refl _

theorem classDeclared (name : Name) (superclass : Option (Name × Binding)) (methods : List (FunctionDecl Binding)) :
    Traced fun hit stop => Run.pausing hit stop (.stmt (.classDecl name superclass methods))
      (Run.executeStep iterations (evaluate hit stop) (execute hit stop) (.classDecl name superclass methods)) := by
  refine writing (x := fun _ _ => Pure.pure ())
    (f := fun _ => do Run.declareClass name superclass methods; return .nil) (pure ())
    (fun _ => chain_bind (chain_declareClass name superclass methods) fun _ _ => rfl) fun m a m₁ ran _ => ?_
  cases ran
  exact changes_bind (changes_declareClass name superclass methods m) fun _ _ _ => .refl _

variable (he : ∀ e, Traced fun hit stop => evaluate hit stop e)
  (never : ∀ e, evaluate .never .overflow e = Run.evaluate iterations depth e)

include he never

theorem assigned (name : Name) (ref : Binding) (e : Expr Binding) :
    Traced fun hit stop => Run.pausing hit stop (.expr (.assign name ref e))
      (Run.evaluateStep (evaluate hit stop) (execute hit stop) (.assign name ref e)) := by
  refine writing (f := fun v => do Run.store name ref v; return v) (he e)
    (fun _ => chain_bind (chain_store _ _ _) fun _ _ => rfl) fun m v m₁ ran inside => ?_
  rw [never] at ran
  refine changes_bind (changes_store fun id found => ?_) fun _ _ _ => .refl _
  rw [inside] at found
  exact .assign ran found

theorem initialized (name : Name) (e : Expr Binding) :
    Traced fun hit stop => Run.pausing hit stop (.stmt (.var name (some e)))
      (Run.executeStep iterations (evaluate hit stop) (execute hit stop) (.var name (some e))) := by
  refine writing (f := fun v => do Run.define name.text (.value v); return .nil) (he e)
    (fun _ => chain_bind (chain_define _ _) fun _ _ => rfl) fun m v m₁ ran inside => ?_
  rw [never] at ran
  refine changes_bind (changes_define fun id outer here => ?_) fun _ _ _ => .refl _
  exact .var ran (inside.symm.trans here)

end Writing

/-- All runs are traced. -/
theorem evaluateTo_executeTo (iterations depth : Nat) :
    (∀ e, Traced fun hit stop => evaluateTo hit stop iterations depth e) ∧
      ∀ s, Traced fun hit stop => executeTo hit stop iterations depth s := by
  induction depth with
  | zero => exact ⟨fun e => paused (throw .overflow) (.expr e), fun s => paused (throw .overflow) (.stmt s)⟩
  | succ depth ih =>
      have never : ∀ e, evaluateTo .never .overflow iterations depth e = Run.evaluate iterations depth e := fun e =>
        congrFun (evaluateTo_never .overflow iterations depth).1 e
      refine ⟨fun e => ?_, fun s => ?_⟩
      · cases e with
        | assign name ref value => exact assigned ih.1 never name ref value
        | _ => exact paused (evaluateStep ih.2 ih.1 (by simp)) (.expr _)
      · cases s with
        | var name initializer =>
            cases initializer with
            | none => exact declared name
            | some e => exact initialized ih.1 never name e
        | function decl => exact function decl
        | classDecl name superclass methods => exact classDeclared name superclass methods
        | _ => exact paused (executeStep ih.2 ih.1 iterations rfl) (.stmt _)

theorem programWith {execute : Breakpoint → Stop → Stmt Binding → Run Value}
    (hs : ∀ s, Traced fun hit stop => execute hit stop s) (last : Value) (ss : List (Stmt Binding)) :
    Traced fun hit stop => Run.programWith (execute hit stop) last ss := by
  induction ss generalizing last with
  | nil => exact pure last
  | cons s ss ih => exact .bind (hs s) fun v => ih v

theorem programTo (limits : Limits) (program : List (Stmt Binding)) :
    Traced fun hit stop => Run.programTo hit stop limits program :=
  programWith (evaluateTo_executeTo _ _).2 .nil program

end Traced

/-! ## Runs without breakpoints -/

/-- However the run ends, the machine is back in the environment in which the run was begun. -/
def Restores (x : Run α) : Prop :=
  ∀ m, (x.final m).chain = m.chain

theorem restores_evaluate (iterations depth : Nat) (e : Expr Binding) : Restores (evaluate iterations depth e) := by
  rw [← (evaluateTo_never .overflow iterations depth).1]
  exact ((Traced.evaluateTo_executeTo iterations depth).1 e).chain _ _

theorem restores_execute (iterations depth : Nat) (s : Stmt Binding) : Restores (execute iterations depth s) := by
  rw [← (evaluateTo_never .overflow iterations depth).2]
  exact ((Traced.evaluateTo_executeTo iterations depth).2 s).chain _ _

/-- A block is left for the environment from which it was entered, whatever its statements do. -/
theorem restores_executeBlock (execute : Stmt Binding → Run Value) (chain : Chain) (frame : Frame)
    (body : List (Stmt Binding)) : Restores (executeBlock execute chain frame body) := by
  intro m
  have made : newFrame frame m = .ok m.heap.frames.size { m with heap := (m.heap.addFrame frame).2 } := rfl
  unfold executeBlock
  rw [final_bind_of_ok _ made, final_inChain]

theorem restores_call (iterations depth : Nat) (callee : Value) (arguments : List Value) (line : Int) :
    Restores (call (execute iterations depth) callee arguments line) := by
  rw [← (evaluateTo_never .overflow iterations depth).2]
  exact (Traced.call (Traced.evaluateTo_executeTo iterations depth).2 callee arguments line).chain _ _

theorem restores_callClosure (iterations depth : Nat) (c : Closure) (arguments : List Value) :
    Restores (callClosure (execute iterations depth) c arguments) := by
  rw [← (evaluateTo_never .overflow iterations depth).2]
  exact (Traced.callClosure (Traced.evaluateTo_executeTo iterations depth).2 c arguments).chain _ _

theorem restores_instantiate (iterations depth : Nat) (id : ClassId) (arguments : List Value) :
    Restores (instantiate (execute iterations depth) id arguments) := by
  rw [← (evaluateTo_never .overflow iterations depth).2]
  exact (Traced.instantiate (Traced.evaluateTo_executeTo iterations depth).2 id arguments).chain _ _

/-- Evaluating an expression keeps all that is bound. -/
theorem extends_evaluate (iterations depth : Nat) (e : Expr Binding) (m : Machine) :
    m.heap.frames.Extends ((evaluate iterations depth e).final m).heap.frames := by
  rw [← (evaluateTo_never .overflow iterations depth).1]
  exact (((Traced.evaluateTo_executeTo iterations depth).1 e).changes .never .overflow m nofun).extension

end Run

namespace Machine

variable {m₀ m : Machine} {limits : Limits} {program : List (Stmt Binding)} {n : Node Binding}

def Makes (m₀ : Machine) (limits : Limits) (program : List (Stmt Binding)) (F : Frames) (id : FrameId) (name : String)
    (slot : Slot) : Prop :=
  ∃ n m, m₀.ComesTo limits program n m ∧ n.Writes m F id name slot

theorem snd_run (m : Machine) (limits : Limits) (program : List (Stmt Binding)) :
    (m.run limits program).2 = (Run.program limits .nil program).final m := by
  unfold run Run.final
  cases Run.program limits .nil program m <;> rfl

theorem chain_run (m : Machine) (limits : Limits) (program : List (Stmt Binding)) :
    (m.run limits program).2.chain = m.chain := by
  rw [snd_run, ← Run.programTo_never .overflow]
  exact (Run.Traced.programTo limits program).chain _ _ m

theorem changes_run (m : Machine) (limits : Limits) (program : List (Stmt Binding)) :
    Frames.Changes (fun F w => w.Permitted (m.Makes limits program) F) m.heap.frames
      (m.run limits program).2.heap.frames := by
  rw [snd_run, ← Run.programTo_never .overflow]
  exact (Run.Traced.programTo limits program).changes .never .overflow m nofun

/-- With a breakpoint at a moment to which a run comes, it ends there. -/
theorem ComesTo.ends (comes : m₀.ComesTo limits program n m) : ∃ m',
    Run.programTo (fun n' m' => n' = n ∧ m' = m) .overflow limits program m₀ = .error .overflow m' ∧
      m'.heap = m.heap := by
  have traced := Run.Traced.programTo limits program
  rcases traced.stops (fun n' m' => n' = n ∧ m' = m) m₀ with same | ⟨_, _, at_, ends⟩
  · -- Without the breakpoint the run could not end in two ways.
    obtain ⟨_, overflow⟩ := comes .overflow nofun
    obtain ⟨_, exhausted⟩ := comes .exhausted nofun
    have equal := overflow.symm.trans ((same .overflow).trans ((same .exhausted).symm.trans exhausted))
    cases equal
  · obtain ⟨rfl, rfl⟩ := at_
    exact ends .overflow nofun

theorem ComesTo.changes (comes : m₀.ComesTo limits program n m) :
    Frames.Changes (fun F w => w.Permitted (m₀.Makes limits program) F) m₀.heap.frames m.heap.frames := by
  obtain ⟨m', ends, heap⟩ := comes.ends
  have changes := (Run.Traced.programTo limits program).changes (fun n' m' => n' = n ∧ m' = m) .overflow m₀ nofun
  rw [Run.final_of_error ends, heap] at changes
  exact changes

end Machine

end LoxScript
