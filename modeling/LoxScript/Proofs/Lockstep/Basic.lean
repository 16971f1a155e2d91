import LoxScript.Proofs.Lockstep.Access
import Mathlib.Data.List.Forall2

/-!
# Two runs in lockstep

A `Lockstep` says which pieces of two programs correspond and which frames of two machines do. Both runs
allocate closures, classes and instances in the same order, so values correspond when they are equal; frames,
chains and names are what may differ. The relation between the pieces of code is closed under taking parts, one
layer at a time (`ExprMatch`, `StmtMatch`), and need not be inductive.
-/

namespace LoxScript

structure Extent where
  closures : Nat
  classes : Nat
  instances : Nat

namespace Extent

def Holds (x : Extent) : Value → Prop
  | .plain _ | .native _ => True
  | .closureRef id => id < x.closures
  | .classRef id => id < x.classes
  | .instanceRef id => id < x.instances

structure Le (x y : Extent) : Prop where
  closures : x.closures ≤ y.closures
  classes : x.classes ≤ y.classes
  instances : x.instances ≤ y.instances

theorem Le.refl (x : Extent) : x.Le x := ⟨Nat.le_refl _, Nat.le_refl _, Nat.le_refl _⟩

theorem Le.trans {x y z : Extent} (h : x.Le y) (h' : y.Le z) : x.Le z :=
  ⟨Nat.le_trans h.closures h'.closures, Nat.le_trans h.classes h'.classes,
    Nat.le_trans h.instances h'.instances⟩

theorem Holds.mono {x y : Extent} {v : Value} (hv : x.Holds v) (h : x.Le y) : y.Holds v := by
  cases v with
  | plain l => trivial
  | native f => trivial
  | closureRef id => exact Nat.lt_of_lt_of_le hv h.closures
  | classRef id => exact Nat.lt_of_lt_of_le hv h.classes
  | instanceRef id => exact Nat.lt_of_lt_of_le hv h.instances

end Extent

def Heap.extent (h : Heap) : Extent :=
  ⟨h.closures.size, h.classes.size, h.instances.size⟩

/-- How two programs and the frames of their machines correspond. -/
structure Lockstep where
  /-- What is known about the frames of both machines. -/
  World : Type
  /-- What surrounds two corresponding pieces of code. -/
  Site : Type
  /-- Later worlds. -/
  le : World → World → Prop
  frames : World → Frames → Frames → Prop
  /-- The environments in which the code of a site runs. -/
  chain : World → Site → Chain → Chain → Prop
  expr : Site → Expr Binding → Expr Binding → Prop
  /-- The last argument is what surrounds the code that follows the statement in its scope. -/
  stmt : Site → Stmt Binding → Stmt Binding → Site → Prop
  line : Site → Int → Int → Prop
  /-- References that are read. -/
  read : Site → Name × Binding → Name × Binding → Prop
  /-- References that are assigned to. -/
  write : Site → Name × Binding → Name × Binding → Prop
  superRef : Site → Binding → Binding → Prop
  /-- Declarations of a variable in the innermost scope. -/
  declare : Site → Name → Name → Site → Prop
  enter : Site → Site → Prop
  enterFunction : Site → List Name → List Name → Site → Prop
  /-- Inside the scope for `super`. -/
  superSite : Site → Site
  /-- Inside the scope for `this` of a class that has a superclass or has none. -/
  thisSite : Bool → Site → Site
  /-- Where initializers stand. -/
  initial : Site → Prop
  /-- Where return statements may stand. -/
  returns : Site → Prop
  failure : RuntimeError → RuntimeError → Prop
  /-- Whether both runs may come to a fault. -/
  fault : Prop

namespace Lockstep

variable (S : Lockstep)

/-! ## Pieces of code -/

structure Label (Γ : S.Site) (n n' : Name) : Prop where
  text : n.text = n'.text
  line : S.line Γ n.line n'.line

inductive Stmts : S.Site → List (Stmt Binding) → List (Stmt Binding) → Prop where
  | nil {Γ} : Stmts Γ [] []
  | cons {Γ Γ₁ s s' ss ss'} : S.stmt Γ s s' Γ₁ → Stmts Γ₁ ss ss' → Stmts Γ (s :: ss) (s' :: ss')

structure Function (Γ : S.Site) (d d' : FunctionDecl Binding) : Prop where
  name : d.name.text = d'.name.text
  body : ∃ Γ₁, S.enterFunction Γ d.params d'.params Γ₁ ∧ S.Stmts Γ₁ d.body d'.body

/-- What surrounds the environment in which the methods of a class are made. -/
def methodsSite (hasSuperclass : Bool) (Γ : S.Site) : S.Site :=
  if hasSuperclass then S.superSite Γ else Γ

inductive ExprMatch (Γ : S.Site) : Expr Binding → Expr Binding → Prop where
  | literal {v} : ExprMatch Γ (.literal v) (.literal v)
  | grouping {e e'} : S.expr Γ e e' → ExprMatch Γ (.grouping e) (.grouping e')
  | unary {op l l' e e'} : S.line Γ l l' → S.expr Γ e e' → ExprMatch Γ (.unary op l e) (.unary op l' e')
  | binary {op l l' a a' b b'} : S.line Γ l l' → S.expr Γ a a' → S.expr Γ b b' →
      ExprMatch Γ (.binary op l a b) (.binary op l' a' b')
  | logical {op l l' a a' b b'} : S.expr Γ a a' → S.expr Γ b b' →
      ExprMatch Γ (.logical op l a b) (.logical op l' a' b')
  | var {n n' r r'} : S.read Γ (n, r) (n', r') → ExprMatch Γ (.var n r) (.var n' r')
  | assign {n n' r r' e e'} : S.write Γ (n, r) (n', r') → S.expr Γ e e' →
      ExprMatch Γ (.assign n r e) (.assign n' r' e')
  | call {f f' l l' es es'} : S.line Γ l l' → S.expr Γ f f' → List.Forall₂ (S.expr Γ) es es' →
      ExprMatch Γ (.call f l es) (.call f' l' es')
  | get {e e' n n'} : S.Label Γ n n' → S.expr Γ e e' → ExprMatch Γ (.get e n) (.get e' n')
  | set {e e' n n' v v'} : S.Label Γ n n' → S.expr Γ e e' → S.expr Γ v v' →
      ExprMatch Γ (.set e n v) (.set e' n' v')
  | this {l l' r r'} : S.read Γ (⟨Keyword.thisWord.text, l⟩, r) (⟨Keyword.thisWord.text, l'⟩, r') →
      ExprMatch Γ (.this l r) (.this l' r')
  | super {l l' m m' r r'} : S.Label Γ m m' → S.superRef Γ r r' →
      ExprMatch Γ (.super l m r) (.super l' m' r')

/-- Code of the site `Γ₁` may run wherever code of the site `Γ` may. -/
def Weaker (Γ Γ₁ : S.Site) : Prop :=
  ∀ w c c', S.chain w Γ c c' → S.chain w Γ₁ c c'

inductive StmtMatch (Γ : S.Site) : Stmt Binding → Stmt Binding → S.Site → Prop where
  | expression {e e'} : S.expr Γ e e' → StmtMatch Γ (.expression e) (.expression e') Γ
  | print {e e'} : S.expr Γ e e' → StmtMatch Γ (.print e) (.print e') Γ
  | var {n n' e e' Γ₁ Γ₂} : S.Weaker Γ Γ₂ → Option.Rel (S.expr Γ₂) e e' → S.declare Γ n n' Γ₁ →
      StmtMatch Γ (.var n e) (.var n' e') Γ₁
  | block {b b' Γ₁} : S.enter Γ Γ₁ → S.Stmts Γ₁ b b' → StmtMatch Γ (.block b) (.block b') Γ
  | function {d d' Γ₁} : S.declare Γ d.name d'.name Γ₁ → S.Function Γ₁ d d' →
      StmtMatch Γ (.function d) (.function d') Γ₁
  | classDecl {n n' c c' ms ms' Γ₁} : n.text = n'.text → Option.Rel (S.read Γ) c c' →
      S.declare Γ n n' Γ₁ →
      List.Forall₂ (S.Function (S.thisSite c.isSome (S.methodsSite c.isSome Γ₁))) ms ms' →
      StmtMatch Γ (.classDecl n c ms) (.classDecl n' c' ms') Γ₁
  | ite {c c' t t' e e'} : S.expr Γ c c' → S.stmt Γ t t' Γ →
      Option.Rel (fun s s' => S.stmt Γ s s' Γ) e e' → StmtMatch Γ (.ite c t e) (.ite c' t' e') Γ
  | ret {l l' e e'} : S.returns Γ → Option.Rel (S.expr Γ) e e' → StmtMatch Γ (.ret l e) (.ret l' e') Γ
  | loop {c c' b b'} : S.expr Γ c c' → S.stmt Γ b b' Γ → StmtMatch Γ (.loop c b) (.loop c' b') Γ

/-! ## Machines -/

/-- A moment of both runs: what is known of the frames, the objects that there are, and the environments. -/
structure Stage where
  world : S.World
  extent : Extent
  left : Chain
  right : Chain

namespace Stage

variable {S}

structure Later (t u : S.Stage) : Prop where
  world : S.le t.world u.world
  extent : t.extent.Le u.extent
  left : u.left = t.left
  right : u.right = t.right

def At (t : S.Stage) (Γ : S.Site) : Prop :=
  S.chain t.world Γ t.left t.right

def within (t : S.Stage) (left right : Chain) : S.Stage :=
  { t with left := left, right := right }

end Stage

structure ClosureMatch (w : S.World) (c c' : Closure) : Prop where
  site : ∃ Γ, S.chain w Γ c.chain c'.chain ∧ S.Function Γ c.decl c'.decl ∧
    (c.isInitializer = true → S.initial Γ)
  initializer : c.isInitializer = c'.isInitializer

/-- Methods as a class keeps them, whose environment does not bind `this` yet. -/
structure MethodMatch (w : S.World) (c c' : Closure) : Prop where
  site : ∃ Γ b, S.chain w Γ c.chain c'.chain ∧ S.Function (S.thisSite b Γ) c.decl c'.decl
  initializer : c.isInitializer = c'.isInitializer

structure ClassMatch (w : S.World) (id : ClassId) (k k' : ClassObject) : Prop where
  name : k.name = k'.name
  superclass : k.superclass = k'.superclass
  older : ∀ s, k.superclass = some s → s < id
  methods : ∀ name, Option.Rel (S.MethodMatch w) (k.methods.find? name) (k'.methods.find? name)

/-- Two machines that correspond at a moment. -/
structure Store (t : S.Stage) (m m' : Machine) : Prop where
  left : m.chain = t.left
  right : m'.chain = t.right
  extent : m.heap.extent = t.extent
  extent' : m'.heap.extent = t.extent
  frames : S.frames t.world m.heap.frames m'.heap.frames
  slots : ∀ id name v, m.heap.frames.find? id name = some (.value v) → t.extent.Holds v
  closures : ∀ id : Nat, Option.Rel (S.ClosureMatch t.world) m.heap.closures[id]? m'.heap.closures[id]?
  classes : ∀ id : Nat, Option.Rel (S.ClassMatch t.world id) m.heap.classes[id]? m'.heap.classes[id]?
  instances : m.heap.instances = m'.heap.instances
  fields : ∀ (id : Nat) i, m.heap.instances[id]? = some i → i.classId < t.extent.classes ∧
    ∀ name v, i.fields.find? name = some v → t.extent.Holds v
  printed : m.printed = m'.printed
  clock : m.clock = m'.clock
  ticks : m.ticks = m'.ticks

/-! ## Results -/

inductive Halts : Stop → Stop → Prop where
  | error {e e'} : S.failure e e' → Halts (.error e) (.error e')
  | overflow : Halts .overflow .overflow
  | exhausted : Halts .exhausted .exhausted
  | fault {f f'} : S.fault → Halts (.fault f) (.fault f')

/-- Results of two computations that were begun at the moment `t`; `returning` says whether a return statement
may have ended them. Nothing is asked of the first if the second ended with one of the stops `X`. -/
inductive Outcome (X : Stop → Prop) {α β : Type} (t : S.Stage) (returning : Prop) (A : S.Stage → α → β → Prop) :
    EStateM.Result Stop Machine α → EStateM.Result Stop Machine β → Prop where
  | ok {u m m' a b} : t.Later u → S.Store u m m' → A u a b → Outcome X t returning A (.ok a m) (.ok b m')
  | returned {u m m' v} : t.Later u → S.Store u m m' → returning → u.extent.Holds v →
      Outcome X t returning A (.error (.returning v) m) (.error (.returning v) m')
  | halted {u m m' s s'} : t.Later u → S.Store u m m' → S.Halts s s' →
      Outcome X t returning A (.error s m) (.error s' m')
  | excused {x m' s'} : X s' → (∀ v, s' ≠ .returning v) → Outcome X t returning A x (.error s' m')

/-- Two computations that give corresponding results on all machines that correspond at the moment `t`. -/
def InStep (X : Stop → Prop) {α β : Type} (t : S.Stage) (returning : Prop) (A : S.Stage → α → β → Prop)
    (x : Run α) (x' : Run β) : Prop :=
  ∀ m m', S.Store t m m' → S.Outcome X t returning A (x m) (x' m')

def Same (t : S.Stage) (v v' : Value) : Prop :=
  v = v' ∧ t.extent.Holds v

/-- The result of a statement, after which code of the site `Γ` may run. -/
def Done (Γ : S.Site) (t : S.Stage) (v v' : Value) : Prop :=
  S.Same t v v' ∧ t.At Γ

inductive SameAccess {α β : Type} (A : α → β → Prop) : Except AccessError α → Except AccessError β → Prop where
  | ok {a b} : A a b → SameAccess A (.ok a) (.ok b)
  | error {e e'} : S.Halts e.stop e'.stop → SameAccess A (.error e) (.error e')

/-- Equal values of a variable that the machine itself binds, of the kind `K` unless faults are allowed. -/
structure SameOwn (K : Value → Prop) (v v' : Option Value) : Prop where
  same : v = v'
  sound : S.fault ∨ ∃ u, v = some u ∧ K u

end Lockstep

def Value.IsClass (v : Value) : Prop := ∃ id, v = .classRef id

def Value.IsInstance (v : Value) : Prop := ∃ id, v = .instanceRef id

namespace Lockstep

/-- What a correspondence must satisfy so that corresponding programs run in lockstep. -/
structure Lawful (S : Lockstep) : Prop where
  le_refl : ∀ w, S.le w w
  le_trans : ∀ {w₁ w₂ w₃}, S.le w₁ w₂ → S.le w₂ w₃ → S.le w₁ w₃
  chain_mono : ∀ {w w' Γ c c'}, S.le w w' → S.chain w Γ c c' → S.chain w' Γ c c'
  /-- Every environment has an innermost frame, and the frame is there. -/
  chain_head : ∀ {w Γ F F' c c'}, S.frames w F F' → S.chain w Γ c c' →
    ∃ id outer id' outer', c = id :: outer ∧ c' = id' :: outer' ∧ id < F.size ∧ id' < F'.size
  failure_line : ∀ {Γ l l' cause lexeme}, S.line Γ l l' →
    S.failure ⟨cause, lexeme, l⟩ ⟨cause, lexeme, l'⟩
  failure_read : ∀ {Γ n r n' r' cause}, S.read Γ (n, r) (n', r') →
    S.failure ⟨cause, n.text, n.line⟩ ⟨cause, n'.text, n'.line⟩
  lookUp : ∀ {w Γ F F' c c' n r n' r'}, S.frames w F F' → S.chain w Γ c c' → S.read Γ (n, r) (n', r') →
    S.SameAccess Eq (F.lookUp c n r) (F'.lookUp c' n' r')
  target : ∀ {w Γ F F' c c' n r n' r'}, S.frames w F F' → S.chain w Γ c c' → S.write Γ (n, r) (n', r') →
    S.SameAccess
      (fun id id' => ∀ v, ∃ w', S.le w w' ∧
        S.frames w' (F.define id n.text (.value v)) (F'.define id' n'.text (.value v)))
      (F.target c n r) (F'.target c' n' r')
  declare : ∀ {w Γ Γ₁ F F' id id' c c' n n'} (slot : Slot), S.frames w F F' →
    S.chain w Γ (id :: c) (id' :: c') → S.declare Γ n n' Γ₁ →
    ∃ w', S.le w w' ∧ S.frames w' (F.define id n.text slot) (F'.define id' n'.text slot) ∧
      S.chain w' Γ₁ (id :: c) (id' :: c')
  declare_again : ∀ {Γ n n' Γ₁}, S.declare Γ n n' Γ₁ → S.declare Γ₁ n n' Γ₁
  enter : ∀ {w Γ Γ₁ F F' c c'}, S.frames w F F' → S.chain w Γ c c' → S.enter Γ Γ₁ →
    ∃ w', S.le w w' ∧ S.frames w' (F.push .empty) (F'.push .empty) ∧
      S.chain w' Γ₁ (F.size :: c) (F'.size :: c')
  enterFunction : ∀ {w Γ Γ₁ F F' c c' ps ps'} (vs : List Value), S.frames w F F' → S.chain w Γ c c' →
    S.enterFunction Γ ps ps' Γ₁ → vs.length = ps.length →
    ∃ w', S.le w w' ∧
      S.frames w' (F.push (.ofList ((ps.map Name.text).zip (vs.map Slot.value))))
        (F'.push (.ofList ((ps'.map Name.text).zip (vs.map Slot.value)))) ∧
      S.chain w' Γ₁ (F.size :: c) (F'.size :: c')
  parameters_length : ∀ {Γ ps ps' Γ₁}, S.enterFunction Γ ps ps' Γ₁ → ps.length = ps'.length
  enterSuper : ∀ {w Γ F F' c c'} (id : ClassId), S.frames w F F' → S.chain w Γ c c' →
    ∃ w', S.le w w' ∧
      S.frames w' (F.push (.singleton Keyword.superWord.text (.value (.classRef id))))
        (F'.push (.singleton Keyword.superWord.text (.value (.classRef id)))) ∧
      S.chain w' (S.superSite Γ) (F.size :: c) (F'.size :: c')
  enterThis : ∀ {w Γ F F' c c'} (b : Bool) (id : InstanceId), S.frames w F F' → S.chain w Γ c c' →
    ∃ w', S.le w w' ∧
      S.frames w' (F.push (.singleton Keyword.thisWord.text (.value (.instanceRef id))))
        (F'.push (.singleton Keyword.thisWord.text (.value (.instanceRef id)))) ∧
      S.chain w' (S.thisSite b Γ) (F.size :: c) (F'.size :: c')
  initial_this : ∀ b Γ, S.initial (S.thisSite b Γ)
  ownThis : ∀ {w Γ F F' c c'}, S.frames w F F' → S.chain w Γ c c' → S.initial Γ →
    S.SameOwn (fun _ => True) (F.own? c 0 Keyword.thisWord.text) (F'.own? c' 0 Keyword.thisWord.text)
  superRef_cases : ∀ {Γ r r'}, S.superRef Γ r r' →
    (r = .global ∧ r' = .global ∧ S.fault) ∨ ∃ d d', r = .scoped d ∧ r' = .scoped d'
  ownSuper : ∀ {w Γ F F' c c' d d'}, S.frames w F F' → S.chain w Γ c c' →
    S.superRef Γ (.scoped d) (.scoped d') →
    S.SameOwn Value.IsClass (F.own? c d Keyword.superWord.text) (F'.own? c' d' Keyword.superWord.text) ∧
    S.SameOwn Value.IsInstance (F.own? c ((d : Int) - 1) Keyword.thisWord.text)
      (F'.own? c' ((d' : Int) - 1) Keyword.thisWord.text)
  returns_enter : ∀ {Γ Γ₁}, S.enter Γ Γ₁ → S.returns Γ₁ → S.returns Γ
  returns_declare : ∀ {Γ n n' Γ₁}, S.declare Γ n n' Γ₁ → S.returns Γ₁ → S.returns Γ
  expr_parts : ∀ {Γ e e'}, S.expr Γ e e' → S.ExprMatch Γ e e'
  stmt_parts : ∀ {Γ s s' Γ₁}, S.stmt Γ s s' Γ₁ → S.StmtMatch Γ s s' Γ₁

end Lockstep

end LoxScript
