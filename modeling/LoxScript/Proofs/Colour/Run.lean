import LoxScript.Proofs.Colour.Machine

/-!
# Runs of clean programs

No operation of the language makes an escape character: strings come from the text or are joined from others. So all
that a clean program keeps in the heap, prints, returns and says in its errors is clean. One law for each combinator
and for each operation of the machine; induction on the depth that is left carries them to whole runs.
-/

namespace LoxScript

/-! ## What operators and lookups give -/

namespace Value

theorem clean_nil : nil.Clean :=
  nofun

theorem clean_bool (b : Bool) : (bool b).Clean :=
  nofun

theorem clean_number (x : Float) : (number x).Clean :=
  List.forall_mem_singleton.2 trivial

end Value

theorem clean_wrongArity (expected given : Nat) : Clean (RuntimeCause.wrongArity expected given).message := by
  have demand : Clean ("Expected " ++ toString expected ++ " arguments but got ") :=
    .append (.append (by decide) (.nat expected)) (by decide)
  exact .append (.append demand (.nat given)) (by decide)

def CleanOutcome : Except RuntimeCause Value → Prop
  | .ok v => v.Clean
  | .error cause => Clean cause.message

theorem UnaryOp.clean_apply (op : UnaryOp) (v : Value) : CleanOutcome (op.apply v) := by
  unfold apply
  split
  · exact Value.clean_number _
  · exact (by decide : Clean RuntimeCause.operandNotNumber.message)
  · exact Value.clean_bool _

namespace BinaryOp

theorem clean_applyNumbers (op : BinaryOp) (x y : Float) : CleanOutcome (op.applyNumbers x y) := by
  cases op with
  | minus | plus | star => exact Value.clean_number _
  | slash =>
      unfold applyNumbers
      dsimp only
      split
      · exact (by decide : Clean RuntimeCause.divisionByZero.message)
      · exact Value.clean_number _
  | _ => exact Value.clean_bool _

/-- Joining strings is the only way to make a string. -/
theorem clean_apply (op : BinaryOp) {v w : Value} (hv : v.Clean) (hw : w.Clean) : CleanOutcome (op.apply v w) := by
  unfold apply
  split
  · exact Value.clean_bool _
  · exact Value.clean_bool _
  · split
    · exact clean_applyNumbers _ _ _
    · have left := hv _ List.mem_cons_self
      have right := hw _ List.mem_cons_self
      exact List.forall_mem_singleton.2 (Clean.append left right)
    · exact (by decide : Clean RuntimeCause.operandsNotAddable.message)
  · split
    · exact clean_applyNumbers _ _ _
    · exact (by decide : Clean RuntimeCause.operandsNotNumbers.message)

end BinaryOp

/-- An error in reaching a variable that names no other one. -/
def AccessError.About (name : Name) : AccessError → Prop
  | .undefined other | .uninitialized other => other = name
  | .unbound _ | .beyond _ => True

theorem AccessError.About.clean {name : Name} {e : AccessError} (h : e.About name) (clean : name.kind.Clean) :
    e.stop.Clean := by
  have named : Clean name.text := clean
  cases e with
  | undefined other =>
      cases h
      exact .append (.append (by decide) named) (by decide)
  | uninitialized other =>
      cases h
      exact .append (.append (by decide) named) (by decide)
  | unbound | beyond => trivial

namespace Frames

variable {frames : Frames} {chain : Chain} {name : Name} {e : AccessError}

theorem about_holder (h : frames.holder chain name = .error e) : e.About name := by
  unfold holder at h
  split at h
  · cases h
  · cases h
    rfl

theorem about_read {slot : Slot} (h : slot.read name = .error e) : e.About name := by
  cases slot with
  | uninitialized =>
      cases h
      rfl
  | value v => cases h

theorem about_get (h : frames.get chain name = .error e) : e.About name := by
  unfold get at h
  cases found : frames.holder chain name with
  | error e' =>
      rw [found] at h
      cases h
      exact about_holder found
  | ok id =>
      rw [found] at h
      dsimp only [bind, Except.bind] at h
      split at h
      · exact about_read h
      · cases h
        rfl

theorem about_getAt {distance : Int} (h : frames.getAt chain distance name = .error e) : e.About name := by
  unfold getAt at h
  cases found : frames.slotAt chain distance name.text with
  | error e' =>
      rw [found] at h
      cases h
      rcases slotAt_eq_error found with ⟨_, rfl⟩ | ⟨_, rfl⟩ <;> trivial
  | ok slot =>
      rw [found] at h
      exact about_read h

theorem about_lookUp {ref : Binding} (h : frames.lookUp chain name ref = .error e) : e.About name :=
  match ref with
  | .global => about_get h
  | .scoped _ => about_getAt h

theorem about_ancestor {distance : Int} (h : ancestor chain distance = .error e) : e.About name := by
  unfold ancestor at h
  split at h
  · cases h
  · cases h
    trivial

theorem about_target {ref : Binding} (h : frames.target chain name ref = .error e) : e.About name :=
  match ref with
  | .global => about_holder h
  | .scoped _ => about_ancestor h

end Frames

namespace Run

/-- What becomes of a run that was begun in a clean machine. The machine stays clean, and so is the stop if there is
one; `A` is known of the result. -/
inductive Tidied {α : Type} (A : α → Prop) : EStateM.Result Stop Machine α → Prop where
  | ok {a m} : m.Clean → A a → Tidied A (.ok a m)
  | error {stop m} : m.Clean → stop.Clean → Tidied A (.error stop m)

/-- Whatever clean machine it is begun in, the run leaves a clean one and has a result with the property `A`. -/
def Tidy {α : Type} (A : α → Prop) (x : Run α) : Prop :=
  ∀ m, m.Clean → Tidied A (x m)

namespace Tidy

variable {α β : Type} {A : α → Prop} {B : β → Prop}

/-! ## Combinators -/

theorem pure {a : α} (ha : A a) : Tidy A (Pure.pure a) :=
  fun _ hm => .ok hm ha

theorem throw {stop : Stop} (hs : stop.Clean) : Tidy A (MonadExcept.throw stop : Run α) :=
  fun _ hm => .error hm hs

theorem fault (f : Fault) : Tidy A (MonadExcept.throw (.fault f) : Run α) :=
  throw trivial

theorem fail {cause : RuntimeCause} (hc : Clean cause.message) (lexeme : String) (line : Int) :
    Tidy A (Run.fail cause lexeme line : Run α) :=
  throw hc

theorem failAt {cause : RuntimeCause} (hc : Clean cause.message) (name : Name) :
    Tidy A (Run.failAt cause name : Run α) :=
  throw hc

theorem get : Tidy Machine.Clean (MonadState.get : Run Machine) :=
  fun _ hm => .ok hm hm

theorem bind {x : Run α} {f : α → Run β} (hx : Tidy A x) (hf : ∀ a, A a → Tidy B (f a)) :
    Tidy B (x >>= f) := by
  intro m hm
  have ended := hx m hm
  show Tidied B (EStateM.bind x f m)
  unfold EStateM.bind
  generalize x m = y at ended ⊢
  cases ended with
  | ok hm' ha => exact hf _ ha _ hm'
  | error hm' hs => exact .error hm' hs

theorem inChain {x : Run α} (hx : Tidy A x) (chain : Chain) : Tidy A (Run.inChain chain x) := by
  intro m hm
  have ended := hx _ (hm.withChain chain)
  unfold Run.inChain
  dsimp only
  generalize x { m with chain := chain } = y at ended ⊢
  cases ended with
  | ok hm' ha => exact .ok (hm'.withChain _) ha
  | error hm' hs => exact .error (hm'.withChain _) hs

theorem catchReturn {A : Unit → Prop} {x : Run Unit} (hx : Tidy A x) :
    Tidy (fun o => ∀ v ∈ o, v.Clean) (Run.catchReturn x) := by
  intro m hm
  have ended := hx m hm
  unfold Run.catchReturn
  generalize x m = y at ended ⊢
  cases ended with
  | ok hm' _ => exact .ok hm' nofun
  | @error stop m' hm' hs =>
      cases stop with
      | returning v =>
          refine .ok hm' ?_
          rintro u ⟨⟩
          exact hs
      | error | overflow | exhausted | fault => exact .error hm' hs

theorem repeatWhile {C : Bool → Prop} {A : Unit → Prop} {condition : Run Bool} {body : Run Unit}
    (hc : Tidy C condition) (hb : Tidy A body) (budget : Nat) :
    Tidy (fun _ => True) (Run.repeatWhile condition body budget) := by
  induction budget with
  | zero => exact throw trivial
  | succ budget ih =>
      refine hc.bind fun b _ => ?_
      cases b with
      | false => exact pure trivial
      | true => exact hb.bind fun _ _ => ih

/-! ## Operations -/

theorem modifyHeap {f : Heap → Heap} (hf : ∀ h, h.Clean → (f h).Clean) :
    Tidy (fun _ => True) (Run.modifyHeap f) :=
  fun m hm => .ok (hm.withHeap (hf m.heap hm.heap)) trivial

theorem allocate {add : Heap → Nat × Heap} (ha : ∀ h, h.Clean → (add h).2.Clean) :
    Tidy (fun _ => True) (Run.allocate add) :=
  fun m hm => .ok (hm.withHeap (ha m.heap hm.heap)) trivial

theorem newFrame {frame : Frame} (hf : frame.Clean) : Tidy (fun _ => True) (Run.newFrame frame) :=
  allocate fun _ hh => hh.addFrame hf

/-- The frames of variables that the machine itself binds. -/
theorem ownFrame (name : String) {v : Value} (hv : v.Clean) :
    Tidy (fun _ => True) (Run.newFrame (.singleton name (.value v))) := by
  refine newFrame fun other slot found => ?_
  rw [Table.find?_singleton] at found
  split at found
  · cases found
    exact hv
  · cases found

theorem newClosure {c : Closure} (hc : c.decl.Clean) : Tidy Value.Clean (Run.newClosure c) :=
  (allocate fun _ hh => hh.addClosure hc).bind fun _ _ => pure trivial

theorem newClass {k : ClassObject} (name : Clean k.name)
    (methods : ∀ name c, k.methods.find? name = some c → c.decl.Clean) : Tidy Value.Clean (Run.newClass k) :=
  (allocate fun _ hh => hh.addClass name methods).bind fun _ _ => pure trivial

theorem newInstance (id : ClassId) : Tidy (fun _ => True) (Run.newInstance id) :=
  allocate fun _ hh => hh.addInstance id

theorem setField (id : InstanceId) (name : String) {v : Value} (hv : v.Clean) :
    Tidy (fun _ => True) (Run.modifyHeap (·.setField id name v)) :=
  modifyHeap fun _ hh => hh.setField id name hv

theorem define (name : String) {slot : Slot} (hs : slot.Clean) :
    Tidy (fun _ => True) (Run.define name slot) := by
  refine get.bind fun m _ => ?_
  split
  · exact fault _
  · exact modifyHeap fun _ hh => hh.define _ name hs

theorem defineValue (name : String) {v : Value} (hv : v.Clean) :
    Tidy (fun _ => True) (Run.define name (.value v)) :=
  define name hv

theorem give (id : FrameId) (name : String) {v : Value} (hv : v.Clean) :
    Tidy (fun _ => True) (Run.modifyHeap (·.define id name (.value v))) :=
  modifyHeap fun _ hh => hh.define id name hv

theorem operate (lexeme : String) (line : Int) {outcome : Except RuntimeCause Value} (h : CleanOutcome outcome) :
    Tidy Value.Clean (Run.operate lexeme line outcome) := by
  cases outcome with
  | ok v => exact pure h
  | error cause => exact fail h lexeme line

theorem access {found : Except AccessError α} (ok : ∀ a, found = .ok a → A a)
    (error : ∀ e, found = .error e → e.stop.Clean) : Tidy A (Run.access found) := by
  intro m hm
  cases found with
  | ok a => exact .ok hm (ok a rfl)
  | error e =>
      rw [access_error]
      exact .error hm (error e rfl)

theorem lookUp {name : Name} (hn : name.kind.Clean) (ref : Binding) : Tidy Value.Clean (Run.lookUp name ref) := by
  intro m hm
  rw [lookUp_eq]
  refine access (fun v found => ?_) (fun e found => (Frames.about_lookUp found).clean hn) m hm
  obtain ⟨id, held⟩ := Frames.lookUp_eq_ok found
  exact hm.heap.slots id name.text (.value v) held

theorem store {name : Name} (hn : name.kind.Clean) (ref : Binding) {v : Value} (hv : v.Clean) :
    Tidy (fun _ => True) (Run.store name ref v) := by
  intro m hm
  rw [store_eq]
  have found : Tidy (fun _ => True) (Run.access (m.heap.frames.target m.chain name ref)) :=
    access (fun _ _ => trivial) fun e found => (Frames.about_target found).clean hn
  exact found.bind (fun id _ => give id name.text hv) m hm

theorem lookUpOwn (chain : Chain) (distance : Int) (name : String) :
    Tidy Value.Clean (Run.lookUpOwn chain distance name) := by
  refine get.bind fun m hm => ?_
  have slot : Tidy Slot.Clean (Run.access (m.heap.frames.slotAt chain distance name)) := by
    refine access (fun slot found => ?_) fun e found => ?_
    · obtain ⟨id, _, held⟩ := Frames.slotAt_eq_ok found
      exact hm.heap.slots id name slot held
    · rcases Frames.slotAt_eq_error found with ⟨_, rfl⟩ | ⟨_, rfl⟩ <;> trivial
  refine slot.bind fun slot hs => ?_
  cases slot with
  | value v => exact pure hs
  | uninitialized => exact fault _

theorem instanceAt (id : InstanceId) :
    Tidy (fun i => ∀ name v, i.fields.find? name = some v → v.Clean) (Run.instanceAt id) := by
  refine get.bind fun m hm => ?_
  split
  · next i found => exact pure (hm.heap.fields id i found)
  · exact fault _

theorem closureAt (id : ClosureId) : Tidy (fun c => c.decl.Clean) (Run.closureAt id) := by
  refine get.bind fun m hm => ?_
  split
  · next c found => exact pure (hm.heap.closures id c found)
  · exact fault _

theorem print {v : Value} (hv : v.Clean) : Tidy (fun _ => True) (Run.print v) := by
  refine fun m hm => .ok ⟨hm.heap, fun line hl => ?_⟩ trivial
  rcases Array.mem_push.1 hl with old | rfl
  · exact hm.printed line old
  · exact hm.heap.display hv

theorem readClock : Tidy Value.Clean Run.readClock :=
  fun _ hm => .ok ⟨hm.heap, hm.printed⟩ (Value.clean_number _)

theorem bindMethod (id : InstanceId) {method : Closure} (hc : method.decl.Clean) :
    Tidy (fun c => c.decl.Clean) (Run.bindMethod id method) :=
  have object : (Value.instanceRef id).Clean := trivial
  (ownFrame _ object).bind fun _ _ => pure hc

/-- A method of a class, bound to an instance and made a value. -/
theorem boundMethod (id : InstanceId) {method : Closure} (hc : method.decl.Clean) :
    Tidy Value.Clean (do Run.newClosure (← Run.bindMethod id method)) :=
  (bindMethod id hc).bind fun _ h => newClosure h

theorem undefinedProperty {name : Name} (hn : name.kind.Clean) :
    Tidy A (Run.failAt (.undefinedProperty name.text) name : Run α) := by
  have message : Clean (RuntimeCause.undefinedProperty name.text).message :=
    .append (.append (by decide) hn) (by decide)
  exact failAt message name

theorem getProperty (object : Value) {name : Name} (hn : name.kind.Clean) :
    Tidy Value.Clean (Run.getProperty object name) := by
  cases object with
  | instanceRef id =>
      refine (instanceAt id).bind fun i hi => ?_
      split
      · next v found => exact pure (hi name.text v found)
      · refine get.bind fun m hm => ?_
        split
        · next method found => exact boundMethod id (hm.heap.method? i.classId found)
        · exact undefinedProperty hn
  | plain | native | closureRef | classRef => exact failAt (by decide) name

theorem getSuper {name : Name} (hn : name.kind.Clean) (ref : Binding) :
    Tidy Value.Clean (Run.getSuper name ref) := by
  cases ref with
  | global => exact fault _
  | «scoped» distance =>
      refine get.bind fun _ _ => (lookUpOwn _ _ _).bind fun superclass _ => (lookUpOwn _ _ _).bind fun object _ => ?_
      split
      · next k id _ _ =>
          refine get.bind fun m hm => ?_
          split
          · next method found => exact boundMethod id (hm.heap.method? k found)
          · exact undefinedProperty hn
      · exact fault _

theorem superclassOf {superclass : Option (Name × Binding)} (hs : ∀ p ∈ superclass, p.1.kind.Clean) :
    Tidy (fun _ => True) (Run.superclassOf superclass) := by
  cases superclass with
  | none => exact pure trivial
  | some p =>
      obtain ⟨name, ref⟩ := p
      refine (lookUp (hs _ rfl) ref).bind fun v _ => ?_
      cases v with
      | classRef id => exact pure trivial
      | plain | native | closureRef | instanceRef => exact failAt (by decide) name

theorem methodChain (superclass : Option ClassId) : Tidy (fun _ => True) (Run.methodChain superclass) := by
  refine get.bind fun m _ => ?_
  cases superclass with
  | none => exact pure trivial
  | some id =>
      have superclass : (Value.classRef id).Clean := trivial
      exact (ownFrame _ superclass).bind fun _ _ => pure trivial

theorem declareClass {name : Name} (hn : name.kind.Clean) {superclass : Option (Name × Binding)}
    (hs : ∀ p ∈ superclass, p.1.kind.Clean) {methods : List (FunctionDecl Binding)}
    (hm : ∀ d ∈ methods, d.Clean) : Tidy (fun _ => True) (Run.declareClass name superclass methods) := by
  refine (superclassOf hs).bind fun superclass _ => (defineValue _ Value.clean_nil).bind fun _ _ => ?_
  refine (methodChain superclass).bind fun chain _ => ?_
  have made : Tidy Value.Clean (Run.newClass ⟨name.text, superclass, methodTable chain methods⟩) := by
    refine newClass hn fun text c found => ?_
    obtain ⟨d, hd, same⟩ := List.mem_map.1 (Table.mem_of_find?_ofList found)
    cases same
    exact hm d hd
  refine made.bind fun v hv => get.bind fun m _ => ?_
  have held : Tidy (fun _ => True) (Run.access (m.heap.frames.holder m.chain name)) :=
    access (fun _ _ => trivial) fun e found => (Frames.about_holder found).clean hn
  exact held.bind fun id _ => give id name.text hv

/-! ## One layer of evaluation -/

section Step

variable {evaluate : Expr Binding → Run Value} {execute : Stmt Binding → Run Value}

theorem evaluateAll (he : ∀ e : Expr Binding, e.Clean → Tidy Value.Clean (evaluate e)) {es : List (Expr Binding)}
    (h : ∀ e ∈ es, e.Clean) : Tidy (fun vs => ∀ v ∈ vs, v.Clean) (Run.evaluateAll evaluate es) := by
  induction es with
  | nil => exact pure nofun
  | cons e es ih =>
      rw [List.forall_mem_cons] at h
      exact (he e h.1).bind fun v hv => (ih h.2).bind fun vs hvs => pure (List.forall_mem_cons.2 ⟨hv, hvs⟩)

variable (hs : ∀ s : Stmt Binding, s.Clean → Tidy Value.Clean (execute s))

include hs

theorem executeAll {ss : List (Stmt Binding)} (h : ∀ s ∈ ss, s.Clean) :
    Tidy (fun _ => True) (Run.executeAll execute ss) := by
  induction ss with
  | nil => exact pure trivial
  | cons s ss ih =>
      rw [List.forall_mem_cons] at h
      exact (hs s h.1).bind fun _ _ => ih h.2

theorem executeBlock (chain : Chain) {frame : Frame} (hf : frame.Clean) {body : List (Stmt Binding)}
    (h : ∀ s ∈ body, s.Clean) :
    Tidy (fun _ => True) (Run.executeBlock execute chain frame body) :=
  (newFrame hf).bind fun _ _ => inChain (executeAll hs h) _

theorem callClosure {c : Closure} (hc : c.decl.Clean) {arguments : List Value} (ha : ∀ v ∈ arguments, v.Clean) :
    Tidy Value.Clean (Run.callClosure execute c arguments) := by
  have given : Frame.Clean (Table.ofList ((c.decl.params.map Name.text).zip (arguments.map Slot.value))) := by
    intro name slot found
    have argument := (List.of_mem_zip (Table.mem_of_find?_ofList found)).2
    obtain ⟨v, hv, rfl⟩ := List.mem_map.1 argument
    exact ha v hv
  refine (catchReturn (executeBlock hs c.chain given hc.body)).bind fun result hr => ?_
  cases c.isInitializer with
  | true => exact lookUpOwn _ _ _
  | false =>
      cases result with
      | none => exact pure Value.clean_nil
      | some v => exact pure (hr v rfl)

theorem instantiate (id : ClassId) {arguments : List Value} (ha : ∀ v ∈ arguments, v.Clean) :
    Tidy Value.Clean (Run.instantiate execute id arguments) := by
  refine (newInstance id).bind fun object _ => get.bind fun m hm => ?_
  split
  · exact pure trivial
  · next method found =>
      refine (bindMethod object (hm.heap.method? id found)).bind fun bound hb => ?_
      exact (callClosure hs hb ha).bind fun _ _ => pure trivial

theorem call (callee : Value) {arguments : List Value} (ha : ∀ v ∈ arguments, v.Clean) (line : Int) :
    Tidy Value.Clean (Run.call execute callee arguments line) := by
  refine get.bind fun m _ => ?_
  cases m.heap.arity? callee with
  | none => exact fail (by decide) _ line
  | some arity =>
      dsimp only
      split
      · exact fail (clean_wrongArity arity arguments.length) _ line
      · cases callee with
        | native f =>
            cases f with
            | clock => exact readClock
            | idle => exact pure Value.clean_nil
        | closureRef id => exact (closureAt id).bind fun c hc => callClosure hs hc ha
        | classRef id => exact instantiate hs id ha
        | plain | instanceRef => exact fault _

variable (he : ∀ e : Expr Binding, e.Clean → Tidy Value.Clean (evaluate e))

include he

theorem evaluateStep {e : Expr Binding} (h : e.Clean) :
    Tidy Value.Clean (Run.evaluateStep evaluate execute e) := by
  cases e with
  | literal v => exact pure h
  | grouping inner => exact he inner h
  | unary op line operand => exact (he operand h).bind fun v _ => operate _ line (op.clean_apply v)
  | binary op line left right =>
      have h := List.forall_mem_append.1 h
      exact (he left h.1).bind fun l hl => (he right h.2).bind fun r hr => operate _ line (op.clean_apply hl hr)
  | logical op line left right =>
      have h := List.forall_mem_append.1 h
      refine (he left h.1).bind fun l hl => ?_
      split
      · exact pure hl
      · exact he right h.2
  | var name ref => exact lookUp (h _ List.mem_cons_self) ref
  | assign name ref value =>
      have h := List.forall_mem_cons.1 h
      exact (he value h.2).bind fun v hv => (store h.1 ref hv).bind fun _ _ => pure hv
  | call callee line arguments =>
      have h := List.forall_mem_append.1 h
      exact (he callee h.1).bind fun f _ =>
        (evaluateAll he (Expr.forall_clean h.2)).bind fun vs hvs => call hs f hvs line
  | get object name =>
      have h := List.forall_mem_cons.1 h
      exact (he object h.2).bind fun o _ => getProperty o h.1
  | set object name value =>
      have parts := List.forall_mem_append.1 (List.forall_mem_cons.1 h).2
      refine (he object parts.1).bind fun o _ => ?_
      cases o with
      | instanceRef id =>
          exact (he value parts.2).bind fun v hv => (setField id name.text hv).bind fun _ _ => pure hv
      | plain | native | closureRef | classRef => exact failAt (by decide) name
  | this line ref =>
      have word : Token.Kind.Clean (Name.kind ⟨Keyword.thisWord.text, line⟩) := Keyword.thisWord.clean_text
      exact lookUp word ref
  | super line method ref => exact getSuper (h _ List.mem_cons_self) ref

theorem executeStep (iterations : Nat) {s : Stmt Binding} (h : s.Clean) :
    Tidy Value.Clean (Run.executeStep iterations evaluate execute s) := by
  have done {x : Run Unit} (hx : Tidy (fun _ => True) x) : Tidy Value.Clean (do x; return .nil) :=
    hx.bind fun _ _ => pure Value.clean_nil
  cases s with
  | expression e => exact he e h
  | print e => exact (he e h).bind fun v hv => done (print hv)
  | var name initializer =>
      cases initializer with
      | none =>
          have unset : Slot.Clean .uninitialized := trivial
          exact done (define _ unset)
      | some e =>
          have h := Expr.forall_clean? (List.forall_mem_cons.1 h).2 e rfl
          exact (he e h).bind fun v hv => done (defineValue _ hv)
  | block body =>
      have empty : Frame.Clean .empty := fun _ _ => nofun
      exact get.bind fun m _ => done (executeBlock hs m.chain empty (Stmt.forall_clean h))
  | function decl =>
      have made (chain : Chain) : Tidy Value.Clean (Run.newClosure ⟨decl, chain, false⟩) := newClosure h
      exact get.bind fun m _ => (made m.chain).bind fun f hf => done (defineValue _ hf)
  | classDecl name superclass methods =>
      have h := List.forall_mem_cons.1 h
      have behind := List.forall_mem_append.1 h.2
      have superclass_clean : ∀ p ∈ superclass, p.1.kind.Clean := by
        rintro p ⟨⟩
        exact behind.1 _ List.mem_cons_self
      exact done (declareClass h.1 superclass_clean (FunctionDecl.forall_clean behind.2))
  | ite condition thenBranch elseBranch =>
      cases elseBranch with
      | none =>
          have h := List.forall_mem_append.1 h
          refine (he condition h.1).bind fun c _ => ?_
          dsimp only
          split
          · exact (hs thenBranch h.2).bind fun _ _ => pure Value.clean_nil
          · exact pure Value.clean_nil
      | some other =>
          have h := List.forall_mem_append.1 h
          have branches := List.forall_mem_append.1 h.2
          refine (he condition h.1).bind fun c _ => ?_
          dsimp only
          split
          · exact (hs thenBranch branches.1).bind fun _ _ => pure Value.clean_nil
          · exact (hs other branches.2).bind fun _ _ => pure Value.clean_nil
  | ret line value =>
      cases value with
      | none => exact throw Value.clean_nil
      | some e => exact (he e (Expr.forall_clean? h e rfl)).bind fun v hv => throw hv
  | loop condition body =>
      have h := List.forall_mem_append.1 h
      have test : Tidy (fun _ => True) (do return (← evaluate condition).isTruthy) :=
        (he condition h.1).bind fun _ _ => pure trivial
      have once : Tidy (fun _ => True) (do let _ ← execute body) :=
        (hs body h.2).bind fun _ _ => pure trivial
      exact done (repeatWhile test once iterations)

end Step

/-! ## Whole runs -/

/-- Both at once, because calls lead from expressions to the statements of a body. -/
theorem evaluate_execute (iterations depth : Nat) :
    (∀ e : Expr Binding, e.Clean → Tidy Value.Clean (Run.evaluate iterations depth e)) ∧
      ∀ s : Stmt Binding, s.Clean → Tidy Value.Clean (Run.execute iterations depth s) := by
  induction depth with
  | zero => exact ⟨fun e _ => throw trivial, fun s _ => throw trivial⟩
  | succ depth ih =>
      exact ⟨fun e h => evaluateStep ih.2 ih.1 h, fun s h => executeStep ih.2 ih.1 iterations h⟩

theorem program (limits : Limits) {last : Value} (hl : last.Clean) {ss : List (Stmt Binding)}
    (h : ∀ s ∈ ss, s.Clean) : Tidy Value.Clean (Run.program limits last ss) := by
  induction ss generalizing last with
  | nil => exact pure hl
  | cons s ss ih =>
      rw [List.forall_mem_cons] at h
      exact ((evaluate_execute _ _).2 s h.1).bind fun v hv => ih hv h.2

end Tidy

end Run

namespace Machine.Clean

variable {m : Machine}

theorem run (hm : m.Clean) (limits : Limits) {program : List (Stmt Binding)} (h : ∀ s ∈ program, s.Clean) :
    (m.run limits program).2.Clean ∧
      (∀ v, (m.run limits program).1 = .ok v → v.Clean) ∧
      ∀ stop, (m.run limits program).1 = .error stop → stop.Clean := by
  have ended := Run.Tidy.program limits Value.clean_nil h m hm
  unfold Machine.run
  generalize Run.program limits .nil program m = result at ended
  cases ended with
  | ok hm' ha =>
      refine ⟨hm', ?_, nofun⟩
      rintro v ⟨⟩
      exact ha
  | error hm' hs =>
      refine ⟨hm', nofun, ?_⟩
      rintro stop ⟨⟩
      exact hs

end Machine.Clean

end LoxScript
