import LoxScript.Proofs.Environment.Moment

/-!
# Links between objects

An environment is an object with a link to the environment around it; here it is the chain of all frames that these
links lead to. A lineage is one environment for each frame, such that the rest of every chain is again the environment
of its first frame. Whatever program runs, all environments of the machine belong to one lineage: so each frame has one
link, which leads to an older frame, and all links together lead to the global one.
-/

namespace LoxScript

/-- The environments of all frames, each with its own frame first. -/
structure Lineage where
  environments : List Chain
  entry : ∀ id c, environments[id]? = some c → id = Heap.globalFrame ∧ c = Heap.globalChain ∨
    ∃ next outer, c = id :: next :: outer ∧ next < id ∧ environments[next]? = some (next :: outer)

namespace Lineage

variable {L : Lineage} {id : FrameId} {c outer : Chain}

def root : Lineage where
  environments := [Heap.globalChain]
  entry id c h := by
    cases id with
    | zero => exact .inl ⟨rfl, (Option.some.inj h).symm⟩
    | succ id => simp at h

theorem head_eq (L : Lineage) (h : L.environments[id]? = some c) : ∃ outer, c = id :: outer := by
  rcases L.entry id c h with ⟨rfl, rfl⟩ | ⟨next, outer, rfl, _⟩
  · exact ⟨[], rfl⟩
  · exact ⟨next :: outer, rfl⟩

theorem at_head (h : id :: outer ∈ L.environments) : L.environments[id]? = some (id :: outer) := by
  obtain ⟨other, found⟩ := List.mem_iff_getElem?.1 h
  obtain ⟨_, same⟩ := L.head_eq found
  cases same
  exact found

/-- With one more frame, inside one that is there, each environment still has its link to an older one. -/
theorem entry_append (L : Lineage) (h : c ∈ L.environments) (id : FrameId) (d : Chain)
    (hd : (L.environments ++ [L.environments.length :: c])[id]? = some d) :
    id = Heap.globalFrame ∧ d = Heap.globalChain ∨ ∃ next outer, d = id :: next :: outer ∧ next < id ∧
      (L.environments ++ [L.environments.length :: c])[next]? = some (next :: outer) := by
  have kept : ∀ {next outer}, L.environments[next]? = some outer →
      (L.environments ++ [L.environments.length :: c])[next]? = some outer := fun found => by
    rw [List.getElem?_append_left (List.getElem?_eq_some_iff.1 found).1]
    exact found
  rcases Nat.lt_trichotomy id L.environments.length with early | rfl | late
  · rw [List.getElem?_append_left early] at hd
    rcases L.entry id d hd with root | ⟨next, outer, hd', older, found⟩
    · exact .inl root
    · exact .inr ⟨next, outer, hd', older, kept found⟩
  · obtain rfl : L.environments.length :: c = d := by simpa using hd
    obtain ⟨next, found⟩ := List.mem_iff_getElem?.1 h
    obtain ⟨outer, rfl⟩ := L.head_eq found
    exact .inr ⟨next, outer, rfl, (List.getElem?_eq_some_iff.1 found).1, kept found⟩
  · rw [List.getElem?_eq_none (by simp; omega)] at hd
    cases hd

def child (L : Lineage) (c : Chain) (h : c ∈ L.environments) : Lineage where
  environments := L.environments ++ [L.environments.length :: c]
  entry := L.entry_append h

def enclosing (L : Lineage) (id : FrameId) : Option FrameId :=
  L.environments[id]?.bind fun c => c.tail.head?

theorem enclosing_eq (h : id :: outer ∈ L.environments) : L.enclosing id = outer.head? := by
  unfold enclosing
  rw [at_head h]
  rfl

theorem lt_of_enclosing {next : FrameId} (h : L.enclosing id = some next) : next < id := by
  unfold enclosing at h
  cases hc : L.environments[id]? with
  | none => simp [hc] at h
  | some c =>
      rw [hc] at h
      rcases L.entry id c hc with ⟨rfl, rfl⟩ | ⟨next', outer, rfl, older, _⟩
      · cases h
      · cases h
        exact older

theorem mem_enclosing {next : FrameId} (h : id :: next :: outer ∈ L.environments) :
    next :: outer ∈ L.environments := by
  rcases L.entry id _ (at_head h) with ⟨_, same⟩ | ⟨next', outer', same, _, found⟩
  · cases same
  · cases same
    exact List.mem_of_getElem? found

theorem getLast? (h : c ∈ L.environments) : c.getLast? = some Heap.globalFrame := by
  obtain ⟨id, found⟩ := List.mem_iff_getElem?.1 h
  induction id using Nat.strongRecOn generalizing c with
  | ind id ih =>
      rcases L.entry id c found with ⟨_, rfl⟩ | ⟨next, outer, rfl, older, found'⟩
      · rfl
      · rw [List.getLast?_cons_cons]
        exact ih next older (List.mem_of_getElem? found') found'

theorem lt_of_mem (L : Lineage) (h : c ∈ L.environments) (hid : id ∈ c) : id < L.environments.length := by
  induction c with
  | nil => cases hid
  | cons first outer ih =>
      rcases List.mem_cons.1 hid with rfl | hid
      · exact (List.getElem?_eq_some_iff.1 (at_head h)).1
      · cases outer with
        | nil => cases hid
        | cons next outer => exact ih (mem_enclosing h) hid

/-- All frames but the global one have a link. -/
theorem enclosed (L : Lineage) (h : id < L.environments.length) (ne : id ≠ Heap.globalFrame) :
    ∃ next, L.enclosing id = some next := by
  obtain ⟨c, found⟩ : ∃ c, L.environments[id]? = some c := ⟨_, List.getElem?_eq_getElem h⟩
  rcases L.entry id c found with ⟨same, _⟩ | ⟨next, outer, rfl, _⟩
  · exact absurd same ne
  · exact ⟨next, enclosing_eq (List.mem_of_getElem? found)⟩

end Lineage

/-! ## All environments belong to one lineage -/

/-- The correspondence of any program with itself, in environments that belong to a lineage. -/
def linkage : Lockstep where
  World := Lineage
  Site := Unit
  le L L' := L.environments <+: L'.environments
  frames L F F' := F = F' ∧ L.environments.length = F.size
  chain L _ c c' := c = c' ∧ c ∈ L.environments
  expr _ e e' := e = e'
  stmt _ s s' _ := s = s'
  line _ l l' := l = l'
  read _ p p' := p = p'
  write _ p p' := p = p'
  superRef _ r r' := r = r'
  declare _ n n' _ := n = n'
  enter _ _ := True
  enterFunction _ ps ps' _ := ps = ps'
  superSite _ := ()
  thisSite _ _ := ()
  initial _ := True
  returns _ := True
  failure e e' := e = e'
  fault := True

namespace linkage

theorem stmts (Γ : Unit) (ss : List (Stmt Binding)) : linkage.Stmts Γ ss ss := by
  induction ss with
  | nil => exact .nil
  | cons s ss ih => exact .cons (show linkage.stmt Γ s s () from rfl) ih

theorem function (Γ : Unit) (d : FunctionDecl Binding) : linkage.Function Γ d d :=
  ⟨rfl, (), rfl, stmts () d.body⟩

theorem expr_parts (Γ : Unit) (e : Expr Binding) : linkage.ExprMatch Γ e e := by
  cases e with
  | literal => exact .literal
  | grouping => exact .grouping rfl
  | unary => exact .unary rfl rfl
  | binary => exact .binary rfl rfl rfl
  | logical => exact .logical rfl rfl
  | var => exact .var rfl
  | assign => exact .assign rfl rfl
  | call f l es => exact .call rfl rfl (List.forall₂_same.2 fun _ _ => rfl)
  | get => exact .get ⟨rfl, rfl⟩ rfl
  | set => exact .set ⟨rfl, rfl⟩ rfl rfl
  | this => exact .this rfl
  | super => exact .super ⟨rfl, rfl⟩ rfl

theorem stmt_parts (Γ Γ₁ : Unit) (s : Stmt Binding) : linkage.StmtMatch Γ s s Γ₁ := by
  have weaker : linkage.Weaker () () := fun _ _ _ h => h
  cases s with
  | expression => exact .expression rfl
  | print => exact .print rfl
  | var n e => exact .var weaker (agreement.relOption_self fun _ _ => rfl) rfl
  | block b => exact .block (show linkage.enter Γ () from trivial) (stmts () b)
  | function d => exact .function rfl (function () d)
  | classDecl n c ms =>
      exact .classDecl rfl (agreement.relOption_self fun _ _ => rfl) rfl (List.forall₂_same.2 fun d _ => function () d)
  | ite c t e => exact .ite rfl rfl (agreement.relOption_self fun _ _ => rfl)
  | ret l e => exact .ret trivial (agreement.relOption_self fun _ _ => rfl)
  | loop => exact .loop rfl rfl

theorem halts (s : Stop) (h : ∀ v, s ≠ .returning v) : linkage.Halts s s := by
  cases s with
  | returning v => exact absurd rfl (h v)
  | error => exact .error rfl
  | overflow => exact .overflow
  | exhausted => exact .exhausted
  | fault => exact .fault trivial

theorem sameAccess {α : Type} {R : α → α → Prop} (x : Except AccessError α) (hR : ∀ a, R a a) :
    linkage.SameAccess R x x := by
  cases x with
  | ok a => exact .ok (hR a)
  | error e =>
      refine .error (halts _ fun v same => ?_)
      cases e <;> cases same

/-- A new frame inside an environment of the lineage. -/
theorem entered {L : Lineage} {F F' : Frames} {c c' : Chain} (hF : linkage.frames L F F')
    (hc : linkage.chain L () c c') (frame : Frame) :
    ∃ L', linkage.le L L' ∧ linkage.frames L' (F.push frame) (F'.push frame) ∧
      linkage.chain L' () (F.size :: c) (F'.size :: c') := by
  obtain ⟨rfl, size⟩ := hF
  obtain ⟨rfl, member⟩ := hc
  refine ⟨L.child c member, List.prefix_append _ _, ⟨rfl, ?_⟩, rfl, ?_⟩
  · simp [Lineage.child, size]
  · simp [Lineage.child, size]

theorem lawful : linkage.Lawful where
  le_refl L := List.prefix_refl L.environments
  le_trans h h' := List.IsPrefix.trans h h'
  chain_mono hL hc := ⟨hc.1, hL.subset hc.2⟩
  chain_head := by
    rintro L Γ F F' c c' ⟨rfl, size⟩ ⟨rfl, member⟩
    obtain ⟨id, found⟩ := List.mem_iff_getElem?.1 member
    obtain ⟨outer, rfl⟩ := L.head_eq found
    have present : id < F.size := size ▸ (List.getElem?_eq_some_iff.1 found).1
    exact ⟨id, outer, id, outer, rfl, rfl, present, present⟩
  failure_line := by
    rintro Γ l l' cause lexeme rfl
    rfl
  failure_read := by
    rintro Γ n r n' r' cause ⟨⟩
    rfl
  lookUp := by
    rintro L Γ F F' c c' n r n' r' ⟨rfl, _⟩ ⟨rfl, _⟩ ⟨⟩
    exact sameAccess _ fun _ => rfl
  target := by
    rintro L Γ F F' c c' n r n' r' ⟨rfl, size⟩ ⟨rfl, _⟩ ⟨⟩
    refine sameAccess _ fun id v => ⟨L, List.prefix_refl _, rfl, ?_⟩
    rw [Frames.size_define]
    exact size
  declare := by
    rintro L Γ Γ₁ F F' id id' c c' n n' slot ⟨rfl, size⟩ ⟨same, member⟩ rfl
    cases same
    refine ⟨L, List.prefix_refl _, ⟨rfl, ?_⟩, rfl, member⟩
    rw [Frames.size_define]
    exact size
  declare_again h := h
  enter hF hc _ := entered hF hc .empty
  enterFunction := by
    rintro L Γ Γ₁ F F' c c' ps ps' vs hF hc rfl _
    exact entered hF hc _
  parameters_length := by
    rintro Γ ps ps' Γ₁ rfl
    rfl
  enterSuper _ hF hc := entered hF hc _
  enterThis _ _ hF hc := entered hF hc _
  initial_this _ _ := trivial
  ownThis := by
    rintro L Γ F F' c c' ⟨rfl, _⟩ ⟨rfl, _⟩ _
    exact ⟨rfl, .inl trivial⟩
  superRef_cases := by
    rintro Γ r r' rfl
    cases r with
    | global => exact .inl ⟨rfl, rfl, trivial⟩
    | «scoped» d => exact .inr ⟨d, d, rfl, rfl⟩
  ownSuper := by
    rintro L Γ F F' c c' d d' ⟨rfl, _⟩ ⟨rfl, _⟩ same
    cases same
    exact ⟨⟨rfl, .inl trivial⟩, ⟨rfl, .inl trivial⟩⟩
  returns_enter _ h := h
  returns_declare _ h := h
  expr_parts := by
    rintro Γ e e' rfl
    exact expr_parts Γ e
  stmt_parts := by
    rintro Γ s s' Γ₁ rfl
    exact stmt_parts Γ Γ₁ s

end linkage

/-! ## Loops along links -/

/-- A loop that goes from one object to the next, until it finds one or comes to the end. Nothing if it is still going on
after the given number of rounds. -/
def climb (found : Nat → Bool) (next : Nat → Option Nat) : Nat → Option Nat → Option (Option Nat)
  | _, none => some none
  | 0, some _ => none
  | rounds + 1, some id => if found id then some (some id) else climb found next rounds (next id)

def follow (next : Nat → Option Nat) : Nat → Option Nat → Option Nat
  | 0, object => object
  | steps + 1, object => follow next steps (object.bind next)

section

variable {found : Nat → Bool} {next : Nat → Option Nat} {rounds rounds' : Nat} {object : Option Nat}
  {answer : Option Nat}

theorem climb_mono (h : climb found next rounds object = some answer) (le : rounds ≤ rounds') :
    climb found next rounds' object = some answer := by
  induction rounds generalizing rounds' object with
  | zero =>
      cases object with
      | none => cases rounds' <;> exact h
      | some id => cases h
  | succ rounds ih =>
      cases object with
      | none => cases rounds' <;> exact h
      | some id =>
          obtain ⟨rest, rfl⟩ := Nat.exists_eq_add_of_le' le
          unfold climb at h ⊢
          dsimp only [Nat.add_eq] at h ⊢
          split
          · next here =>
              rw [if_pos here] at h
              exact h
          · next missing =>
              rw [if_neg missing] at h
              exact ih h (by omega)

theorem follow_none (steps : Nat) : follow next steps none = none := by
  induction steps with
  | zero => rfl
  | succ steps ih => exact ih

end

theorem Frames.holder?_eq_find? (frames : Frames) (name : String) (chain : Chain) :
    frames.holder? name chain = chain.find? fun id => (frames.find? id name).isSome := by
  induction chain with
  | nil => rfl
  | cons id outer ih =>
      rw [holder?, List.find?_cons, ih]
      cases (frames.find? id name).isSome <;> rfl

namespace Lineage

variable {L : Lineage} {id : FrameId} {outer : Chain}

/-- A loop along the links from a frame goes through its chain. -/
theorem climb_eq (found : FrameId → Bool) (h : id :: outer ∈ L.environments) :
    climb found L.enclosing (id + 1) (some id) = some ((id :: outer).find? found) := by
  induction id using Nat.strongRecOn generalizing outer with
  | ind id ih =>
      unfold climb
      rw [enclosing_eq h, List.find?_cons]
      cases here : found id with
      | true => rfl
      | false =>
          cases outer with
          | nil => cases id <;> rfl
          | cons next outer =>
              have older : next < id := lt_of_enclosing (enclosing_eq h)
              exact climb_mono (ih next older (mem_enclosing h)) older

theorem follow_eq (h : id :: outer ∈ L.environments) (steps : Nat) :
    follow L.enclosing steps (some id) = (id :: outer)[steps]? := by
  induction steps generalizing id outer with
  | zero => rfl
  | succ steps ih =>
      show follow L.enclosing steps (L.enclosing id) = outer[steps]?
      rw [enclosing_eq h]
      cases outer with
      | nil => exact follow_none steps
      | cons next outer => exact ih (mem_enclosing h)

end Lineage

/-! ## The links of a machine -/

namespace Machine

/-- The environments of a machine: the current one, those that functions, methods and bound methods have kept, and the
environments around these. -/
inductive Environment (m : Machine) : Chain → Prop where
  | current : Environment m m.chain
  | closure {id : ClosureId} {c : Closure} : m.heap.closures[id]? = some c → Environment m c.chain
  | method {id : ClassId} {k : ClassObject} {name : String} {c : Closure} : m.heap.classes[id]? = some k →
      k.methods.find? name = some c → Environment m c.chain
  | enclosing {id next outer} : Environment m (id :: next :: outer) → Environment m (next :: outer)

def superclass? (m : Machine) (id : ClassId) : Option ClassId :=
  m.heap.classes[id]?.bind ClassObject.superclass

def hasMethod (m : Machine) (name : String) (id : ClassId) : Bool :=
  (m.heap.classes[id]?.bind fun k => k.methods.find? name).isSome

/-- Frames and classes are numbered in the order in which they are made. Each environment has one link, and all links
lead to objects that are older. -/
structure WellLinked (m : Machine) (enclosing : FrameId → Option FrameId) : Prop where
  link : ∀ (id : FrameId) (outer : Chain), m.Environment (id :: outer) → enclosing id = outer.head?
  present : ∀ c, m.Environment c → ∀ id ∈ c, id < m.heap.frames.size
  older : ∀ id next, enclosing id = some next → next < id
  /-- Every frame, also one that only a suspended call will go back to, has a link, except for the global one. -/
  enclosed : ∀ id < m.heap.frames.size, id ≠ Heap.globalFrame → ∃ next, enclosing id = some next
  rooted : ∀ c, m.Environment c → c.getLast? = some Heap.globalFrame
  superclass_older : ∀ id superclass, m.superclass? id = some superclass → superclass < id

/-- The loops along links come to an end, and they give what the lookups of environments and of classes give. -/
structure LoopsEnd (m : Machine) (enclosing : FrameId → Option FrameId) : Prop where
  /-- Reading and assigning a variable by name. -/
  holder : ∀ id outer, m.Environment (id :: outer) → ∀ name,
    climb (fun frame => (m.heap.frames.find? frame name).isSome) enclosing (id + 1) (some id) =
      some (m.heap.frames.holder? name (id :: outer))
  /-- Going out by a distance. -/
  ancestor : ∀ id outer, m.Environment (id :: outer) → ∀ distance,
    follow enclosing distance (some id) = (id :: outer)[distance]?
  method : ∀ id name, ∃ owner, climb (m.hasMethod name) m.superclass? (id + 1) (some id) = some owner ∧
    m.heap.method? id name = owner.bind fun k => m.heap.classes[k]?.bind fun k => k.methods.find? name

/-- Machines in which all environments belong to a lineage. -/
def Descends (m : Machine) (L : Lineage) : Prop :=
  ∃ (t : linkage.Stage) (m₁ : Machine), t.world = L ∧ t.At () ∧ linkage.Store t m₁ m

namespace Descends

variable {m : Machine} {L : Lineage}

theorem start (clock : Nat → Float) : (Machine.start clock).Descends .root := by
  have frames : linkage.frames .root Heap.start.frames Heap.start.frames := ⟨rfl, rfl⟩
  exact ⟨_, _, rfl, ⟨rfl, List.mem_singleton.2 rfl⟩, Lockstep.Store.start frames Heap.globalChain clock⟩

theorem forgetPrinted (h : m.Descends L) : Machine.Descends { m with printed := #[] } L := by
  obtain ⟨t, m₁, world, at', store⟩ := h
  exact ⟨t, { m₁ with printed := #[] }, world, at', { store with printed := rfl }⟩

/-- Running a program only adds to the lineage, however the run ends. -/
theorem run (h : m.Descends L) (limits : Limits) (program : List (Stmt Binding)) :
    ∃ L', L.environments <+: L'.environments ∧ (m.run limits program).2.Descends L' := by
  obtain ⟨t, m₁, rfl, at', store⟩ := h
  have ran := Lockstep.InStep.program linkage.lawful (X := fun _ => False) limits (linkage.stmts () program)
    (fun _ => trivial) at' m₁ m store
  have later : ∀ {u m₁' m'}, t.Later u → linkage.Store u m₁' m' →
      ∃ L', t.world.environments <+: L'.environments ∧ m'.Descends L' := fun hu store' =>
    ⟨_, hu.world, _, _, rfl, hu.at linkage.lawful at', store'⟩
  unfold Machine.run
  generalize Run.program limits .nil program m₁ = x at ran
  generalize Run.program limits .nil program m = x' at ran ⊢
  cases ran with
  | ok hu store' _ => exact later hu store'
  | returned hu store' _ _ => exact later hu store'
  | halted hu store' _ => exact later hu store'
  | excused hx _ => exact hx.elim

/-- Whenever a run comes to a piece, all environments belong to a lineage. -/
theorem comes {m₀ : Machine} (h : m₀.Descends L) {limits : Limits} {program : List (Stmt Binding)} {n : Node Binding}
    (comes : m₀.ComesTo limits program n m) : ∃ L, m.Descends L := by
  obtain ⟨t, m₁, _, at', store⟩ := h
  have fresh : ∀ s, ∃ stop, (∀ v, stop ≠ .returning v) ∧ ¬ linkage.Halts s stop := fun s => by
    cases s with
    | error e =>
        refine ⟨.overflow, nofun, nofun⟩
    | returning | overflow | exhausted | fault =>
        exact ⟨.error ⟨.divisionByZero, "", 0⟩, nofun, nofun⟩
  obtain ⟨_, u, m₁', _, at'', store'⟩ :=
    Lockstep.comes linkage.lawful store at' (linkage.stmts () program) fresh comes
  exact ⟨_, u, m₁', rfl, at'', store'⟩

theorem relOption_some {α : Type} {R : α → α → Prop} {o : Option α} {b : α} (h : Option.Rel R o (some b)) :
    ∃ a, R a b := by
  cases h with
  | some related => exact ⟨_, related⟩

theorem mem_environments (h : m.Descends L) {c : Chain} (hc : m.Environment c) : c ∈ L.environments := by
  obtain ⟨t, m₁, rfl, ⟨same, member⟩, store⟩ := h
  induction hc with
  | current =>
      rw [store.right, ← same]
      exact member
  | @closure id c found =>
      have matched := store.closures id
      rw [found] at matched
      obtain ⟨_, matched⟩ := relOption_some matched
      obtain ⟨_, ⟨same, member⟩, _⟩ := matched.site
      exact same ▸ member
  | @method id k name c found own =>
      have matched := store.classes id
      rw [found] at matched
      obtain ⟨_, matched⟩ := relOption_some matched
      have method := matched.methods name
      rw [own] at method
      obtain ⟨_, method⟩ := relOption_some method
      obtain ⟨_, _, ⟨same, member⟩, _⟩ := method.site
      exact same ▸ member
  | enclosing _ ih => exact Lineage.mem_enclosing ih

theorem length_environments (h : m.Descends L) : L.environments.length = m.heap.frames.size := by
  obtain ⟨t, m₁, rfl, _, store⟩ := h
  obtain ⟨same, size⟩ := store.frames
  exact same ▸ size

theorem superclass_older (h : m.Descends L) {id superclass : ClassId} (hs : m.superclass? id = some superclass) :
    superclass < id := by
  obtain ⟨t, m₁, rfl, _, store⟩ := h
  have matched := store.classes id
  unfold superclass? at hs
  cases found : m.heap.classes[id]? with
  | none =>
      rw [found] at hs
      cases hs
  | some k =>
      rw [found] at hs matched
      obtain ⟨_, matched⟩ := relOption_some matched
      exact matched.older _ (matched.superclass.trans hs)

theorem wellLinked (h : m.Descends L) : m.WellLinked L.enclosing where
  link id outer hc := Lineage.enclosing_eq (h.mem_environments hc)
  present c hc id hid := by
    rw [← h.length_environments]
    exact L.lt_of_mem (h.mem_environments hc) hid
  older id next := Lineage.lt_of_enclosing
  enclosed id hid ne := by
    rw [← h.length_environments] at hid
    exact L.enclosed hid ne
  rooted c hc := Lineage.getLast? (h.mem_environments hc)
  superclass_older id superclass := h.superclass_older

theorem climb_method (h : m.Descends L) (id : ClassId) (name : String) :
    ∃ owner, climb (m.hasMethod name) m.superclass? (id + 1) (some id) = some owner ∧
      m.heap.method? id name = owner.bind fun k => m.heap.classes[k]?.bind fun k => k.methods.find? name := by
  induction id using Nat.strongRecOn with
  | ind id ih =>
      rw [Heap.method?]
      unfold climb hasMethod
      cases found : m.heap.classes[id]? with
      | none =>
          have last : m.superclass? id = none := by rw [superclass?, found, Option.bind_none]
          refine ⟨none, ?_, rfl⟩
          rw [last]
          cases id <;> rfl
      | some k =>
          rw [Option.bind_some]
          dsimp only
          cases own : k.methods.find? name with
          | some c =>
              refine ⟨some id, rfl, ?_⟩
              rw [Option.bind_some, found, Option.bind_some, own]
          | none =>
              have link : m.superclass? id = k.superclass := by rw [superclass?, found, Option.bind_some]
              rw [link]
              cases superclass : k.superclass with
              | none => exact ⟨none, by cases id <;> rfl, rfl⟩
              | some s =>
                  have older : s < id := h.superclass_older (link.trans superclass)
                  obtain ⟨owner, climbed, method⟩ := ih s older
                  exact ⟨owner, climb_mono climbed older, (if_pos older).trans method⟩

theorem loopsEnd (h : m.Descends L) : m.LoopsEnd L.enclosing where
  holder id outer hc name := by
    rw [Lineage.climb_eq _ (h.mem_environments hc), Frames.holder?_eq_find?]
  ancestor id outer hc distance := Lineage.follow_eq (h.mem_environments hc) distance
  method := h.climb_method

end Descends

end Machine

end LoxScript
