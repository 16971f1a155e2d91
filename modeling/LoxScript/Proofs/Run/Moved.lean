import LoxScript.Proofs.Run.Lines

/-!
# Runs do not look at lines

Changing the lines of a program and of the functions on the heap changes what a run does in one respect only: the
line of a runtime error is changed as well. What has been printed before stays where it is. There is one law for each
way to compose runs.
-/

namespace LoxScript

/-- A machine whose functions and methods stand on other lines, and that has printed something before. -/
def Machine.moved (f : Int → Int) (p : Array String) (m : Machine) : Machine :=
  { m with heap := m.heap.mapLines f, printed := p ++ m.printed }

@[simp] theorem Machine.moved_heap (f : Int → Int) (p : Array String) (m : Machine) :
    (m.moved f p).heap = m.heap.mapLines f := rfl

@[simp] theorem Machine.moved_chain (f : Int → Int) (p : Array String) (m : Machine) :
    (m.moved f p).chain = m.chain := rfl

/-- A result whose machine and error are changed alike, and whose value is changed by `g`. -/
def Run.moveResult {α β : Type} (f : Int → Int) (p : Array String) (g : α → β) :
    EStateM.Result Stop Machine α → EStateM.Result Stop Machine β
  | .ok a m => .ok (g a) (m.moved f p)
  | .error stop m => .error (stop.mapLine f) (m.moved f p)

namespace Run

variable {α β γ δ : Type} (f : Int → Int) (p : Array String)

/-- On a machine that is changed `x'` does what `x` does, apart from the change. -/
def Moved (g : α → β) (x : Run α) (x' : Run β) : Prop :=
  ∀ m : Machine, x' (m.moved f p) = moveResult f p g (x m)

namespace Moved

variable {f p} {g : α → β} {x : Run α} {x' : Run β}

theorem pure (a : α) : Moved f p g (Pure.pure a) (Pure.pure (g a)) :=
  fun _ => rfl

theorem throw (stop : Stop) : Moved f p g (MonadExcept.throw stop) (MonadExcept.throw (stop.mapLine f)) :=
  fun _ => rfl

theorem bindMap {k : α → Run γ} {k' : β → Run δ} {h : γ → δ} (hx : Moved f p g x x')
    (hk : ∀ a, Moved f p h (k a) (k' (g a))) : Moved f p h (x >>= k) (x' >>= k') := by
  intro m
  show EStateM.bind x' k' (m.moved f p) = moveResult f p h (EStateM.bind x k m)
  unfold EStateM.bind
  rw [hx m]
  cases x m with
  | ok a m => exact hk a m
  | error stop m => rfl

theorem bind {x x' : Run α} {k : α → Run γ} {k' : α → Run δ} {h : γ → δ} (hx : Moved f p id x x')
    (hk : ∀ a, Moved f p h (k a) (k' a)) : Moved f p h (x >>= k) (x' >>= k') :=
  hx.bindMap hk

/-- A run that looks at the machine first. -/
theorem onMachine {k : Machine → Run α} {k' : Machine → Run β} (h : ∀ m, Moved f p g (k m) (k' (m.moved f p))) :
    Moved f p g (MonadState.get >>= k) (MonadState.get >>= k') :=
  fun m => h m m

theorem fail (cause : RuntimeCause) (lexeme : String) (line : Int) :
    Moved f p g (Run.fail cause lexeme line) (Run.fail cause lexeme (f line)) :=
  throw (.error ⟨cause, lexeme, line⟩)

theorem failAt (cause : RuntimeCause) (n : Name) : Moved f p g (Run.failAt cause n) (Run.failAt cause (n.mapLine f)) :=
  fail cause n.text n.line

theorem access (a : Except AccessError α) :
    Moved f p id (Run.access a) (Run.access (a.mapError (AccessError.mapLine f))) := by
  intro m
  cases a with
  | ok a => rfl
  | error e =>
      show Run.access (.error (e.mapLine f)) _ = _
      rw [access_error, access_error, AccessError.stop_mapLine]
      rfl

theorem operate (lexeme : String) (line : Int) (v : Except RuntimeCause Value) :
    Moved f p id (Run.operate lexeme line v) (Run.operate lexeme (f line) v) := by
  cases v with
  | ok v => exact pure v
  | error cause => exact fail cause lexeme line

theorem inChain (chain : Chain) {x x' : Run α} (hx : Moved f p id x x') :
    Moved f p id (Run.inChain chain x) (Run.inChain chain x') := by
  intro m
  have inner := hx { m with chain := chain }
  unfold Run.inChain
  dsimp only
  show (match x' (Machine.moved f p { m with chain := chain }) with | .ok a m => _ | .error stop m => _) = _
  rw [inner]
  cases x { m with chain := chain } <;> rfl

theorem catchReturn {x x' : Run Unit} (hx : Moved f p id x x') :
    Moved f p id (Run.catchReturn x) (Run.catchReturn x') := by
  intro m
  unfold Run.catchReturn
  rw [hx m]
  cases x m with
  | ok a m => rfl
  | error stop m => cases stop <;> rfl

theorem repeatWhile {condition condition' : Run Bool} {body body' : Run Unit} (hc : Moved f p id condition condition')
    (hb : Moved f p id body body') (budget : Nat) :
    Moved f p id (Run.repeatWhile condition body budget) (Run.repeatWhile condition' body' budget) := by
  induction budget with
  | zero => exact throw .exhausted
  | succ budget ih =>
      refine hc.bind fun b => ?_
      cases b with
      | true => exact hb.bind fun _ => ih
      | false => exact pure ()

/-! ## Variables -/

theorem define (name : String) (slot : Slot) : Moved f p id (Run.define name slot) (Run.define name slot) := by
  refine onMachine fun m => ?_
  rw [Machine.moved_chain]
  cases m.chain with
  | nil => exact throw _
  | cons id outer => exact fun m => rfl

theorem lookUp (n : Name) (ref : Binding) : Moved f p id (Run.lookUp n ref) (Run.lookUp (n.mapLine f) ref) := by
  refine onMachine fun m => ?_
  match ref with
  | .global =>
      have found := access (f := f) (p := p) (m.heap.frames.get Heap.globalChain n)
      rwa [← Frames.get_mapLine] at found
  | .scoped distance =>
      have found := access (f := f) (p := p) (m.heap.frames.getAt m.chain distance n)
      rwa [← Frames.getAt_mapLine] at found

theorem store (n : Name) (ref : Binding) (v : Value) :
    Moved f p id (Run.store n ref v) (Run.store (n.mapLine f) ref v) := by
  refine onMachine fun m => ?_
  match ref with
  | .global =>
      have found := access (f := f) (p := p) (m.heap.frames.holder Heap.globalChain n)
      rw [← Frames.holder_mapLine] at found
      exact found.bind fun _ _ => rfl
  | .scoped distance =>
      have found := access (f := f) (p := p) (Frames.ancestor m.chain distance)
      rw [Frames.ancestor_mapError] at found
      exact found.bind fun _ _ => rfl

theorem lookUpOwn (chain : Chain) (distance : Int) (name : String) :
    Moved f p id (Run.lookUpOwn chain distance name) (Run.lookUpOwn chain distance name) := by
  refine onMachine fun m => ?_
  have found := access (f := f) (p := p) (m.heap.frames.slotAt chain distance name)
  rw [Frames.slotAt_mapError] at found
  refine found.bind fun slot => ?_
  cases slot with
  | value v => exact pure v
  | uninitialized => exact throw _

/-! ## Objects -/

theorem allocate {add add' : Heap → Nat × Heap}
    (h : ∀ heap : Heap, add' (heap.mapLines f) = ((add heap).1, (add heap).2.mapLines f)) :
    Moved f p id (Run.allocate add) (Run.allocate add') := by
  intro m
  have added := h m.heap
  show EStateM.Result.ok (add' (m.heap.mapLines f)).1 { m.moved f p with heap := (add' (m.heap.mapLines f)).2 } = _
  rw [added]
  rfl

theorem newFrame (frame : Frame) : Moved f p id (Run.newFrame frame) (Run.newFrame frame) :=
  allocate fun _ => rfl

theorem newInstance (k : ClassId) : Moved f p id (Run.newInstance k) (Run.newInstance k) :=
  allocate fun _ => rfl

theorem newClosure (c : Closure) : Moved f p id (Run.newClosure c) (Run.newClosure (c.mapLines f)) :=
  (allocate fun heap => heap.addClosure_mapLines f c).bind fun _ => pure _

theorem newClass (k : ClassObject) : Moved f p id (Run.newClass k) (Run.newClass (k.mapLines f)) :=
  (allocate fun heap => heap.addClass_mapLines f k).bind fun _ => pure _

theorem modifyHeap {h h' : Heap → Heap} (same : ∀ heap : Heap, h' (heap.mapLines f) = (h heap).mapLines f) :
    Moved f p id (Run.modifyHeap h) (Run.modifyHeap h') := by
  intro m
  show EStateM.Result.ok () { m.moved f p with heap := h' (m.heap.mapLines f) } = _
  rw [same]
  rfl

theorem readClock : Moved f p id Run.readClock Run.readClock :=
  fun _ => rfl

theorem closureAt (c : ClosureId) : Moved f p (Closure.mapLines f) (Run.closureAt c) (Run.closureAt c) := by
  refine onMachine fun m => ?_
  rw [Machine.moved_heap, Heap.closures_mapLines]
  cases m.heap.closures[c]? with
  | some c => exact pure c
  | none => exact throw _

theorem instanceAt (object : InstanceId) : Moved f p id (Run.instanceAt object) (Run.instanceAt object) := by
  refine onMachine fun m => ?_
  rw [Machine.moved_heap, Heap.instances_mapLines]
  cases m.heap.instances[object]? with
  | some i => exact pure i
  | none => exact throw _

theorem print (v : Value) : Moved f p id (Run.print v) (Run.print v) := by
  intro m
  show EStateM.Result.ok () { m.moved f p with printed := (p ++ m.printed).push ((m.heap.mapLines f).display v) } = _
  rw [Heap.display_mapLines, ← Array.append_push]
  rfl

/-! ## Calls -/

section Calls

variable {evaluate : Expr Binding → Run Value} {execute : Stmt Binding → Run Value}

theorem evaluateAll (he : ∀ e, Moved f p id (evaluate e) (evaluate (e.mapLines f))) (es : List (Expr Binding)) :
    Moved f p id (Run.evaluateAll evaluate es) (Run.evaluateAll evaluate (Expr.mapLinesAll f es)) := by
  induction es with
  | nil => exact pure _
  | cons e es ih => exact (he e).bind fun v => ih.bind fun vs => pure _

variable (hx : ∀ s, Moved f p id (execute s) (execute (s.mapLines f)))

include hx

theorem executeAll (ss : List (Stmt Binding)) :
    Moved f p id (Run.executeAll execute ss) (Run.executeAll execute (Stmt.mapLinesAll f ss)) := by
  induction ss with
  | nil => exact pure _
  | cons s ss ih => exact (hx s).bind fun _ => ih

theorem executeBlock (chain : Chain) (frame : Frame) (body : List (Stmt Binding)) :
    Moved f p id (Run.executeBlock execute chain frame body)
      (Run.executeBlock execute chain frame (Stmt.mapLinesAll f body)) :=
  (newFrame frame).bind fun _ => inChain _ (executeAll hx body)

theorem callClosure (c : Closure) (vs : List Value) :
    Moved f p id (Run.callClosure execute c vs) (Run.callClosure execute (c.mapLines f) vs) := by
  have params : (c.mapLines f).decl.params.map Name.text = c.decl.params.map Name.text := by
    simp [Closure.mapLines, FunctionDecl.params_mapLines]
  have body : (c.mapLines f).decl.body = Stmt.mapLinesAll f c.decl.body := c.decl.body_mapLines f
  unfold Run.callClosure
  rw [params, body]
  refine (catchReturn (executeBlock hx _ _ _)).bind fun result => ?_
  show Moved f p id (if c.isInitializer then _ else _) (if c.isInitializer then _ else _)
  split
  · exact lookUpOwn _ _ _
  · exact pure _

omit hx in
/-- The bound method has the same lines as the method. -/
theorem bindMethod (object : InstanceId) (c : Closure) :
    Moved f p (Closure.mapLines f) (Run.bindMethod object c) (Run.bindMethod object (c.mapLines f)) :=
  (newFrame _).bind fun _ => pure _

theorem instantiate (k : ClassId) (vs : List Value) :
    Moved f p id (Run.instantiate execute k vs) (Run.instantiate execute k vs) := by
  refine (newInstance k).bind fun object => onMachine fun m => ?_
  rw [Machine.moved_heap, Heap.initializer?_mapLines]
  cases m.heap.initializer? k with
  | none => exact pure _
  | some method => exact (bindMethod object method).bindMap fun c => (callClosure hx c vs).bind fun _ => pure _

theorem call (callee : Value) (vs : List Value) (line : Int) :
    Moved f p id (Run.call execute callee vs line) (Run.call execute callee vs (f line)) := by
  refine onMachine fun m => ?_
  rw [Machine.moved_heap, Heap.arity?_mapLines]
  cases m.heap.arity? callee with
  | none => exact fail _ _ _
  | some arity =>
      dsimp only
      split
      · exact fail _ _ _
      · cases callee with
        | plain | instanceRef => exact throw _
        | native g =>
            cases g with
            | clock => exact readClock
            | idle => exact pure _
        | closureRef c => exact (closureAt c).bindMap fun c => callClosure hx c vs
        | classRef k => exact instantiate hx k vs

end Calls

/-! ## Properties and classes -/

theorem boundMethod (object : InstanceId) (c : Closure) :
    Moved f p id (do Run.newClosure (← Run.bindMethod object c))
      (do Run.newClosure (← Run.bindMethod object (c.mapLines f))) :=
  (bindMethod object c).bindMap newClosure

theorem getProperty (v : Value) (n : Name) :
    Moved f p id (Run.getProperty v n) (Run.getProperty v (n.mapLine f)) := by
  cases v with
  | plain | native | closureRef | classRef => exact failAt _ n
  | instanceRef object =>
      refine (instanceAt object).bind fun i => ?_
      rw [Name.mapLine_text]
      cases i.fields.find? n.text with
      | some v => exact pure v
      | none =>
          refine onMachine fun m => ?_
          rw [Machine.moved_heap, Heap.method?_mapLines]
          cases m.heap.method? i.classId n.text with
          | some c => exact boundMethod object c
          | none => exact failAt _ n

theorem getSuper (n : Name) (ref : Binding) : Moved f p id (Run.getSuper n ref) (Run.getSuper (n.mapLine f) ref) := by
  match ref with
  | .global => exact throw _
  | .scoped distance =>
      refine onMachine fun m => (lookUpOwn _ _ _).bind fun superclass => (lookUpOwn _ _ _).bind fun object => ?_
      cases superclass with
      | plain | native | closureRef | instanceRef => exact throw _
      | classRef k =>
          cases object with
          | plain | native | closureRef | classRef => exact throw _
          | instanceRef object =>
              refine onMachine fun m => ?_
              rw [Machine.moved_heap, Heap.method?_mapLines, Name.mapLine_text]
              cases m.heap.method? k n.text with
              | some c => exact boundMethod object c
              | none => exact failAt _ n

theorem superclassOf (c : Option (Name × Binding)) :
    Moved f p id (Run.superclassOf c) (Run.superclassOf (c.map fun p => (p.1.mapLine f, p.2))) := by
  cases c with
  | none => exact pure _
  | some p =>
      refine (lookUp p.1 p.2).bind fun v => ?_
      cases v with
      | classRef k => exact pure _
      | plain | native | closureRef | instanceRef => exact failAt _ p.1

theorem methodChain (k : Option ClassId) : Moved f p id (Run.methodChain k) (Run.methodChain k) := by
  refine onMachine fun m => ?_
  cases k with
  | none => exact pure _
  | some k => exact (newFrame _).bind fun _ => pure _

theorem methodTable_mapLines (f : Int → Int) (chain : Chain) (ds : List (FunctionDecl Binding)) :
    methodTable chain (FunctionDecl.mapLinesAll f ds) = (methodTable chain ds).map (Closure.mapLines f) := by
  unfold methodTable
  rw [← Table.ofList_map, FunctionDecl.mapLinesAll_eq_map]
  simp [Function.comp_def, Closure.mapLines, FunctionDecl.name_mapLines, FunctionDecl.isInitializer_mapLines]

theorem declareClass (n : Name) (c : Option (Name × Binding)) (ds : List (FunctionDecl Binding)) :
    Moved f p id (Run.declareClass n c ds)
      (Run.declareClass (n.mapLine f) (c.map fun p => (p.1.mapLine f, p.2)) (FunctionDecl.mapLinesAll f ds)) := by
  refine (superclassOf c).bind fun superclass => (define n.text _).bind fun _ => ?_
  refine (methodChain superclass).bind fun chain => ?_
  have made : Moved f p id (Run.newClass ⟨n.text, superclass, methodTable chain ds⟩)
      (Run.newClass ⟨n.text, superclass, methodTable chain (FunctionDecl.mapLinesAll f ds)⟩) := by
    rw [methodTable_mapLines]
    exact newClass _
  refine made.bind fun k => onMachine fun m => ?_
  have found := access (f := f) (p := p) (m.heap.frames.holder m.chain n)
  rw [← Frames.holder_mapLine] at found
  exact found.bind fun _ => modifyHeap fun _ => rfl

/-! ## Evaluating and executing -/

section Steps

variable {evaluate : Expr Binding → Run Value} {execute : Stmt Binding → Run Value}
  (he : ∀ e, Moved f p id (evaluate e) (evaluate (e.mapLines f)))
  (hx : ∀ s, Moved f p id (execute s) (execute (s.mapLines f)))

include he hx

theorem evaluateStep (e : Expr Binding) :
    Moved f p id (Run.evaluateStep evaluate execute e) (Run.evaluateStep evaluate execute (e.mapLines f)) := by
  cases e with
  | literal v => exact pure _
  | grouping e => exact he e
  | unary op line e => exact (he e).bind fun v => operate _ _ _
  | binary op line a b => exact (he a).bind fun v => (he b).bind fun w => operate _ _ _
  | logical op line a b =>
      refine (he a).bind fun v => ?_
      show Moved f p id (if op.decidedBy v then _ else _) (if op.decidedBy v then _ else _)
      split
      · exact pure v
      · exact he b
  | var n ref => exact lookUp n ref
  | assign n ref e => exact (he e).bind fun v => (store n ref v).bind fun _ => pure v
  | call e line es => exact (he e).bind fun v => (evaluateAll he es).bind fun vs => call hx v vs line
  | get e n => exact (he e).bind fun v => getProperty v n
  | set e n e' =>
      refine (he e).bind fun o => ?_
      cases o with
      | instanceRef object =>
          refine (he e').bind fun v => ?_
          have changed : Moved f p id (Run.modifyHeap (·.setField object n.text v))
              (Run.modifyHeap (·.setField object n.text v)) := modifyHeap fun _ => rfl
          exact changed.bind fun _ => pure v
      | plain | native | closureRef | classRef => exact failAt _ n
  | this line ref => exact lookUp ⟨Keyword.thisWord.text, line⟩ ref
  | super line n ref => exact getSuper n ref

theorem executeStep (iterations : Nat) (s : Stmt Binding) :
    Moved f p id (Run.executeStep iterations evaluate execute s)
      (Run.executeStep iterations evaluate execute (s.mapLines f)) := by
  cases s with
  | expression e => exact he e
  | print e => exact (he e).bind fun v => (print v).bind fun _ => pure _
  | var n e =>
      cases e with
      | none => exact (define n.text _).bind fun _ => pure _
      | some e => exact (he e).bind fun v => (define n.text _).bind fun _ => pure _
  | block ss => exact onMachine fun m => (executeBlock hx _ _ ss).bind fun _ => pure _
  | function d =>
      have declared : ∀ v, Moved f p id (Run.define d.name.text (.value v))
          (Run.define (d.mapLines f).name.text (.value v)) := by
        rw [d.name_mapLines]
        exact fun v => define d.name.text _
      exact onMachine fun m => (newClosure _).bind fun v => (declared v).bind fun _ => pure _
  | classDecl n c ds => exact (declareClass n c ds).bind fun _ => pure _
  | ite c t e =>
      refine (he c).bind fun v => ?_
      show Moved f p id (if v.isTruthy then _ else _) (if v.isTruthy then _ else _)
      split
      · exact (hx t).bind fun _ => pure _
      · cases e with
        | none => exact pure _
        | some e => exact (hx e).bind fun _ => pure _
  | ret line e =>
      cases e with
      | none => exact throw (.returning .nil)
      | some e => exact (he e).bind fun v => throw (.returning v)
  | loop c b =>
      refine (repeatWhile ?_ ?_ iterations).bind fun _ => pure _
      · exact (he c).bind fun v => pure v.isTruthy
      · exact (hx b).bind fun _ => pure _

end Steps

theorem evaluate_execute (iterations depth : Nat) :
    (∀ e, Moved f p id (Run.evaluate iterations depth e) (Run.evaluate iterations depth (e.mapLines f))) ∧
      ∀ s, Moved f p id (Run.execute iterations depth s) (Run.execute iterations depth (s.mapLines f)) := by
  induction depth with
  | zero => exact ⟨fun _ => throw .overflow, fun _ => throw .overflow⟩
  | succ depth ih => exact ⟨evaluateStep ih.1 ih.2, executeStep ih.1 ih.2 iterations⟩

theorem program (limits : Limits) (last : Value) (ss : List (Stmt Binding)) :
    Moved f p id (Run.program limits last ss) (Run.program limits last (ss.map (Stmt.mapLines f))) := by
  induction ss generalizing last with
  | nil => exact pure _
  | cons s ss ih => exact ((evaluate_execute _ _).2 s).bind fun v => ih v

end Moved

end Run

/-- Running a program with other lines on a machine with other lines. -/
theorem Machine.run_moved (f : Int → Int) (p : Array String) (m : Machine) (limits : Limits)
    (ss : List (Stmt Binding)) : (m.moved f p).run limits (ss.map (Stmt.mapLines f)) =
      ((m.run limits ss).1.mapError (Stop.mapLine f), (m.run limits ss).2.moved f p) := by
  unfold Machine.run
  rw [Run.Moved.program limits .nil ss m]
  cases Run.program limits .nil ss m <;> rfl

end LoxScript
