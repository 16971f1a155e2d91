import LoxScript.Proofs.Loop.Run

/-!
# Machines that cannot be told apart

After two runs that were begun in one machine, whatever well-scoped code follows them shows whether their effects
are the same: it sees the variables of the frames that were there before, and it can call every function that either
run has made.
-/

namespace LoxScript

/-- What can be seen of a run: how it ends, and what has been printed then. -/
def Run.observe {α : Type} (x : Run α) (m : Machine) : Except Stop α × Array String :=
  match x m with
  | .ok a m => (.ok a, m.printed)
  | .error stop m => (.error stop, m.printed)

namespace Machine

/-- Two machines that come from the machine `m` and differ in nothing that code can see. -/
structure Alike (m m₁ m₂ : Machine) : Prop where
  chain : m₁.chain = m₂.chain
  printed : m₁.printed = m₂.printed
  clock : m₁.clock = m₂.clock
  ticks : m₁.ticks = m₂.ticks
  /-- There are as many functions, classes and instances. -/
  extent : m₁.heap.extent = m₂.heap.extent
  instances : m₁.heap.instances = m₂.heap.instances
  display : ∀ v, m₁.heap.display v = m₂.heap.display v
  /-- The variables that were there before have the same values. -/
  frames : ∀ id, id < m.heap.frames.size → ∀ name, m₁.heap.frames.find? id name = m₂.heap.frames.find? id name
  /-- Well-scoped code that stands where `m` has the environment for it does the same. -/
  follows : ∀ (limits : Limits) (Γ : Context) (chain : Chain) (code : List (Stmt Binding)), Γ.Settled →
    Stmts.Scoped Unlabelled Γ code → Fits m.heap.frames Γ.scopes chain →
    (Run.inChain chain (Run.executeAll (Run.execute limits.iterations limits.depth) code)).observe m₁ =
      (Run.inChain chain (Run.executeAll (Run.execute limits.iterations limits.depth) code)).observe m₂
  /-- Every function, also one that was made on the way, does the same when it is called. -/
  calls : ∀ (limits : Limits) (callee : Value) (arguments : List Value) (line : Int), m₁.heap.extent.Holds callee →
    (∀ v ∈ arguments, m₁.heap.extent.Holds v) →
    (Run.call (Run.execute limits.iterations limits.depth) callee arguments line).observe m₁ =
      (Run.call (Run.execute limits.iterations limits.depth) callee arguments line).observe m₂

namespace Alike

variable {m m₁ m₂ m₃ : Machine}

theorem symm (h : m.Alike m₁ m₂) : m.Alike m₂ m₁ where
  chain := h.chain.symm
  printed := h.printed.symm
  clock := h.clock.symm
  ticks := h.ticks.symm
  extent := h.extent.symm
  instances := h.instances.symm
  display v := (h.display v).symm
  frames id hid name := (h.frames id hid name).symm
  follows limits Γ chain code settled well fits := (h.follows limits Γ chain code settled well fits).symm
  calls limits callee arguments line held helds := by
    rw [← h.extent] at held helds
    exact (h.calls limits callee arguments line held helds).symm

theorem trans (h : m.Alike m₁ m₂) (h' : m.Alike m₂ m₃) : m.Alike m₁ m₃ where
  chain := h.chain.trans h'.chain
  printed := h.printed.trans h'.printed
  clock := h.clock.trans h'.clock
  ticks := h.ticks.trans h'.ticks
  extent := h.extent.trans h'.extent
  instances := h.instances.trans h'.instances
  display v := (h.display v).trans (h'.display v)
  frames id hid name := (h.frames id hid name).trans (h'.frames id hid name)
  follows limits Γ chain code settled well fits :=
    (h.follows limits Γ chain code settled well fits).trans (h'.follows limits Γ chain code settled well fits)
  calls limits callee arguments line held helds := by
    have again := h'.calls limits callee arguments line (h.extent ▸ held) (h.extent ▸ helds)
    exact (h.calls limits callee arguments line held helds).trans again

end Alike

/-- Runs that were begun in the machine `m`, and end for the same reason or with the same value in machines that
cannot be told apart. A value that is returned is one that these machines have. -/
inductive EndsAlike (m : Machine) :
    EStateM.Result Stop Machine Value → EStateM.Result Stop Machine Value → Prop where
  | value {v m₁ m₂} : m.Alike m₁ m₂ → EndsAlike m (.ok v m₁) (.ok v m₂)
  | stop {s m₁ m₂} : m.Alike m₁ m₂ → (∀ v, s = .returning v → m₁.heap.extent.Holds v) →
      EndsAlike m (.error s m₁) (.error s m₂)

namespace EndsAlike

variable {m : Machine} {x y z : EStateM.Result Stop Machine Value}

theorem symm (h : m.EndsAlike x y) : m.EndsAlike y x := by
  cases h with
  | value h => exact .value h.symm
  | stop h held => exact .stop h.symm fun v hv => h.extent ▸ held v hv

theorem trans (h : m.EndsAlike x y) (h' : m.EndsAlike y z) : m.EndsAlike x z := by
  cases h with
  | value h =>
      cases h' with
      | value h' => exact .value (h.trans h')
  | stop h held =>
      cases h' with
      | stop h' _ => exact .stop (h.trans h') held

end EndsAlike

/-- No code that may follow comes to a fault in the machine `m₁`, which comes from the machine `m`. -/
structure Faultless (m m₁ : Machine) : Prop where
  follows : ∀ (limits : Limits) (Γ : Context) (chain : Chain) (code : List (Stmt Binding)), Γ.Settled →
    Stmts.Scoped Unlabelled Γ code → Fits m.heap.frames Γ.scopes chain → ∀ f m',
    Run.inChain chain (Run.executeAll (Run.execute limits.iterations limits.depth) code) m₁ ≠ .error (.fault f) m'
  calls : ∀ (limits : Limits) (callee : Value) (arguments : List Value) (line : Int), m₁.heap.extent.Holds callee →
    (∀ v ∈ arguments, m₁.heap.extent.Holds v) → ∀ f m',
    Run.call (Run.execute limits.iterations limits.depth) callee arguments line m₁ ≠ .error (.fault f) m'

/-- A run that was begun in the machine `m` and comes to no fault, and neither does code that follows it. -/
inductive EndsFaultless (m : Machine) : EStateM.Result Stop Machine Value → Prop where
  | value {v m₁} : m.Faultless m₁ → EndsFaultless m (.ok v m₁)
  | stop {s m₁} : (∀ f, s ≠ .fault f) → m.Faultless m₁ → EndsFaultless m (.error s m₁)

end Machine

/-! ## Runs in lockstep -/

namespace Lockstep

structure Plain (S : Lockstep) : Prop where
  failure : ∀ e e', S.failure e e' → e = e'
  line : ∀ l, ∃ Γ, S.line Γ l l

variable {S : Lockstep} {X : Stop → Prop} {α β : Type} {t u : S.Stage} {r : Prop}

theorem Outcome.observe (plain : S.Plain) {A : S.Stage → α → α → Prop} {x x' : Run α} {m m' : Machine}
    (h : S.Outcome (fun _ => False) t r A (x m) (x' m')) (hA : ∀ u a b, A u a b → a = b)
    (safe : S.fault → ∀ f m₁, x' m' ≠ .error (.fault f) m₁) : x.observe m = x'.observe m' := by
  unfold Run.observe
  generalize x m = y at h
  generalize x' m' = y' at h safe
  cases h with
  | ok _ hs ha =>
      cases hA _ _ _ ha
      exact congrArg _ hs.printed
  | returned _ hs _ _ => exact congrArg _ hs.printed
  | halted _ hs halts =>
      cases halts with
      | error he =>
          cases plain.failure _ _ he
          exact congrArg _ hs.printed
      | overflow | exhausted => exact congrArg _ hs.printed
      | fault hf => exact absurd rfl (safe hf _ _)
  | excused hx _ => exact hx.elim

/-- Two runs end alike if corresponding machines cannot be told apart, unless the end of the second is excused. -/
theorem Outcome.endsAlike (plain : S.Plain) {A : S.Stage → Value → Value → Prop} {m : Machine}
    {y y' : EStateM.Result Stop Machine Value} (h : S.Outcome X t r A y y') (hA : ∀ u a b, A u a b → a = b)
    (safe : S.fault → m.EndsFaultless y')
    (alike : ∀ u m₁ m₂, t.Later u → S.Store u m₁ m₂ → (S.fault → m.Faultless m₂) → m.Alike m₁ m₂) :
    (∃ s m₁, X s ∧ y' = .error s m₁) ∨ m.EndsAlike y y' := by
  cases h with
  | ok hu hs ha =>
      cases hA _ _ _ ha
      refine .inr (.value (alike _ _ _ hu hs fun hf => ?_))
      cases safe hf with
      | value h => exact h
  | returned hu hs _ held =>
      refine .inr (.stop (alike _ _ _ hu hs fun hf => ?_) fun v hv => ?_)
      · cases safe hf with
        | stop _ h => exact h
      · cases hv
        exact hs.extent ▸ held
  | halted hu hs halts =>
      have same := alike _ _ _ hu hs fun hf => by
        cases safe hf with
        | stop _ h => exact h
      cases halts with
      | error he =>
          cases plain.failure _ _ he
          exact .inr (.stop same nofun)
      | overflow | exhausted => exact .inr (.stop same nofun)
      | fault hf =>
          cases safe hf with
          | stop other _ => exact absurd rfl (other _)
  | excused hx _ => exact .inl ⟨_, _, hx, rfl⟩

/-- Code that follows in environments that correspond. -/
theorem InStep.follows (L : S.Lawful) {Γ : S.Site} {c c' : Chain} {code code' : List (Stmt Binding)}
    (hcode : S.Stmts Γ code code') (hchain : S.chain t.world Γ c c') (limits : Limits) :
    S.InStep X t True (fun _ _ _ => True)
      (Run.inChain c (Run.executeAll (Run.execute limits.iterations limits.depth) code))
      (Run.inChain c' (Run.executeAll (Run.execute limits.iterations limits.depth) code')) := by
  have runs := (evaluate_execute (X := X) L limits.iterations limits.depth).2
  have inner : S.InStep X (t.within c c') True (fun _ _ _ => True) _ _ :=
    InStep.executeAll L (fun u Γ s s' Γ₁ _ hs _ hu => (runs u Γ s s' Γ₁ hs hu).mayReturn) hcode (fun _ => trivial)
      hchain
  exact inner.inChain fun _ _ _ _ _ => trivial

/-- A value is called in both machines. -/
theorem InStep.calls (L : S.Lawful) (plain : S.Plain) {callee : Value} {arguments : List Value}
    (held : t.extent.Holds callee) (helds : ∀ v ∈ arguments, t.extent.Holds v) (limits : Limits) (line : Int) :
    S.InStep X t True S.Same (Run.call (Run.execute limits.iterations limits.depth) callee arguments line)
      (Run.call (Run.execute limits.iterations limits.depth) callee arguments line) := by
  obtain ⟨Γ, same⟩ := plain.line line
  exact InStep.call L (evaluate_execute L limits.iterations limits.depth).2 same held helds

/-- Corresponding machines cannot be told apart, if code of the old environments may follow in both. -/
theorem Store.alike (L : S.Lawful) (plain : S.Plain) {m m₁ m₂ : Machine} (hs : S.Store u m₁ m₂)
    (chain : u.left = u.right)
    (frames : ∀ id, id < m.heap.frames.size → ∀ name,
      m₁.heap.frames.find? id name = m₂.heap.frames.find? id name)
    (site : ∀ Γ c code, Γ.Settled → Stmts.Scoped Unlabelled Γ code → Fits m.heap.frames Γ.scopes c →
      ∃ Δ, S.Stmts Δ code code ∧ S.chain u.world Δ c c)
    (safe : S.fault → m.Faultless m₂) : m.Alike m₁ m₂ where
  chain := (hs.left.trans chain).trans hs.right.symm
  printed := hs.printed
  clock := hs.clock
  ticks := hs.ticks
  extent := hs.extent.trans hs.extent'.symm
  instances := hs.instances
  display := hs.display
  frames := frames
  follows limits Γ c code settled well fits := by
    obtain ⟨Δ, hcode, hchain⟩ := site Γ c code settled well fits
    refine (InStep.follows L hcode hchain limits m₁ m₂ hs).observe plain (fun _ _ _ _ => rfl) fun hf => ?_
    exact (safe hf).follows limits Γ c code settled well fits
  calls limits callee arguments line held helds := by
    have held' := hs.extent ▸ held
    have helds' := hs.extent ▸ helds
    refine (InStep.calls L plain held' helds' limits line m₁ m₂ hs).observe plain (fun _ _ _ h => h.1) fun hf => ?_
    have same := hs.extent.trans hs.extent'.symm
    exact (safe hf).calls limits callee arguments line (same ▸ held) (same ▸ helds)

/-- Only correspondences that allow for faults have any. -/
theorem Outcome.fault {A : S.Stage → α → β → Prop} {y : EStateM.Result Stop Machine α} {f : Fault} {m' : Machine}
    (h : S.Outcome (fun _ => False) t r A y (.error (.fault f) m')) : S.fault := by
  cases h with
  | halted _ _ halts =>
      cases halts with
      | fault hf => exact hf
  | excused hx _ => exact hx.elim

end Lockstep

/-! ## Well-scoped programs -/

namespace agreement

variable {P : Context → Node Binding → Prop} {t u : (agreement Unlabelled).Stage} {m m₁ m₂ : Machine} {Γ : Context}

theorem relOption_right {α β : Type} {R : α → β → Prop} {R' : β → β → Prop} {a : Option α} {b : Option β}
    (h : Option.Rel R a b) (hR : ∀ x y, R x y → R' y y) : Option.Rel R' b b := by
  cases h with
  | none => exact .none
  | some h => exact .some (hR _ _ h)

theorem stmts_unlabelled {Γ : (agreement P).Site} {ss ss' : List (Stmt Binding)} (h : (agreement P).Stmts Γ ss ss') :
    (agreement Unlabelled).Stmts Γ ss' ss' := by
  induction h with
  | nil => exact .nil
  | cons h _ ih =>
      obtain ⟨rfl, well, settled, rfl⟩ := h
      exact .cons ⟨rfl, well.unlabelled, settled, rfl⟩ ih

theorem function_unlabelled {d d' : FunctionDecl Binding} (h : (agreement P).Function Γ d d') :
    (agreement Unlabelled).Function Γ d' d' := by
  obtain ⟨_, ⟨params, ids, kind, inside, rfl⟩, hb⟩ := h.body
  rw [params] at ids hb
  exact ⟨rfl, _, ⟨rfl, ids, kind, inside, rfl⟩, stmts_unlabelled hb⟩

theorem closure_unlabelled {F : Frames} {c c' : Closure} (h : (agreement P).ClosureMatch F c c') :
    (agreement Unlabelled).ClosureMatch F c' c' := by
  obtain ⟨Γ, ⟨same, fits⟩, hf, initial⟩ := h.site
  rw [same] at fits
  exact ⟨⟨Γ, ⟨rfl, fits⟩, function_unlabelled hf, h.initializer ▸ initial⟩, rfl⟩

theorem method_unlabelled {F : Frames} {c c' : Closure} (h : (agreement P).MethodMatch F c c') :
    (agreement Unlabelled).MethodMatch F c' c' := by
  obtain ⟨Γ, b, ⟨same, fits⟩, hf⟩ := h.site
  rw [same] at fits
  exact ⟨⟨Γ, b, ⟨rfl, fits⟩, function_unlabelled hf⟩, rfl⟩

theorem class_unlabelled {F : Frames} {id : ClassId} {k k' : ClassObject} (h : (agreement P).ClassMatch F id k k') :
    (agreement Unlabelled).ClassMatch F id k' k' :=
  ⟨rfl, rfl, fun s hs => h.older s (h.superclass.trans hs),
    fun name => relOption_right (h.methods name) fun _ _ => method_unlabelled⟩

def second (t : (agreement P).Stage) : (agreement Unlabelled).Stage :=
  ⟨t.world, t.extent, t.right, t.right⟩

theorem store_second {t : (agreement P).Stage} (hs : (agreement P).Store t m₁ m) :
    (agreement Unlabelled).Store (second t) m m := by
  obtain ⟨frames, frames', own, pos⟩ := hs.frames
  have slots := hs.slots
  rw [frames, ← frames'] at slots
  exact
    { left := hs.right, right := hs.right, extent := hs.extent', extent' := hs.extent'
      frames := ⟨frames', frames', own, pos⟩
      slots := slots
      closures := fun id => relOption_right (hs.closures id) fun _ _ => closure_unlabelled
      classes := fun id => relOption_right (hs.classes id) fun _ _ => class_unlabelled
      instances := rfl
      fields := hs.instances ▸ hs.fields
      printed := rfl, clock := rfl, ticks := rfl }

theorem at_second {t : (agreement P).Stage} (ht : t.At Γ) : (second t).At Γ := by
  obtain ⟨same, fits⟩ := ht
  rw [same] at fits
  exact ⟨rfl, fits⟩

theorem plain (P : Context → Node Binding → Prop) : (agreement P).Plain where
  failure _ _ same := same
  line _ := ⟨.top, rfl⟩

/-- Code that may run in the machine `m` may run later. -/
theorem site (later : m.heap.frames.Extends u.world) {c : Chain} {code : List (Stmt Binding)}
    (settled : Γ.Settled) (well : Stmts.Scoped Unlabelled Γ code) (fits : Fits m.heap.frames Γ.scopes c) :
    (agreement Unlabelled).Stmts Γ code code ∧ (agreement Unlabelled).chain u.world Γ c c :=
  ⟨stmts well settled, rfl, fits.mono later⟩

theorem faultless (hs : (agreement Unlabelled).Store u m₁ m₂) (later : m.heap.frames.Extends u.world) :
    m.Faultless m₂ where
  follows limits Γ c code settled well fits f m' h := by
    obtain ⟨hcode, hchain⟩ := site later settled well fits
    have ran := Lockstep.InStep.follows (X := fun _ => False) (lawful Unlabelled) hcode hchain limits m₁ m₂ hs
    rw [h] at ran
    exact ran.fault
  calls limits callee arguments line held helds f m' h := by
    have ran := Lockstep.InStep.calls (X := fun _ => False) (lawful Unlabelled) (plain _) (hs.extent' ▸ held)
      (hs.extent' ▸ helds) limits line m₁ m₂ hs
    rw [h] at ran
    exact ran.fault

theorem endsFaultless {A : (agreement Unlabelled).Stage → Value → Value → Prop}
    {y y' : EStateM.Result Stop Machine Value} {r : Prop}
    (h : (agreement Unlabelled).Outcome (fun _ => False) t r A y y') (start : m.heap.frames = t.world) :
    m.EndsFaultless y' := by
  cases h with
  | ok hu hs _ => exact .value (faultless hs (start ▸ hu.world))
  | returned hu hs _ _ => exact .stop nofun (faultless hs (start ▸ hu.world))
  | halted hu hs halts =>
      refine .stop (fun f same => ?_) (faultless hs (start ▸ hu.world))
      cases halts with
      | error | overflow | exhausted => cases same
      | fault hf => exact hf
  | excused hx _ => exact hx.elim

theorem alike (hs : (agreement Unlabelled).Store u m₁ m₂) (later : m.heap.frames.Extends u.world)
    (chain : u.left = u.right) : m.Alike m₁ m₂ := by
  obtain ⟨same, same', _⟩ := hs.frames
  refine hs.alike (lawful Unlabelled) (plain _) chain (fun id _ name => ?_) (fun Γ c code settled well fits => ?_)
    False.elim
  · rw [same, same']
  · exact ⟨Γ, site later settled well fits⟩

/-- Runs in lockstep that are begun in the machine `m` end alike, unless the end of the second is excused. -/
theorem endsAlike (hs : (agreement Unlabelled).Store t m m) (ht : t.At Γ) {X : Stop → Prop} {r : Prop}
    {y y' : EStateM.Result Stop Machine Value}
    (h : (agreement Unlabelled).Outcome X t r (agreement Unlabelled).Same y y') :
    (∃ s m₁, X s ∧ y' = .error s m₁) ∨ m.EndsAlike y y' := by
  refine h.endsAlike (plain _) (fun _ _ _ h => h.1) False.elim fun u m₁ m₂ later hs' _ => ?_
  exact alike hs' (hs.frames.1 ▸ later.world) (later.left.trans (ht.1.trans later.right.symm))

end agreement

/-! ## Frames that only one machine has -/

namespace padded

variable {t : (agreement Unlabelled).Stage} {u : padded.Stage} {m m₁ m₂ : Machine} {Γ : Context} {c : Chain}

theorem plain : padded.Plain where
  failure _ _ same := same
  line _ := ⟨.same, rfl⟩

theorem chains_alone {F : Frames} (pos : 0 < F.size) (fits : Fits F Γ.scopes c) :
    (Padding.alone F.size).Chains .same c c := by
  obtain ⟨id, outer, rfl, _⟩ := fits.head pos
  exact ⟨fits.lt pos, List.cons_ne_nil _ _, Heap.globalFrame, pos, (List.map_id _).symm⟩

/-- One machine twice, of which only well-scoped programs have made the objects. -/
def alone (m : Machine) : padded.Stage :=
  ⟨.alone m.heap.frames.size, m.heap.extent, m.chain, m.chain⟩

theorem closure_alone {F : Frames} (pos : 0 < F.size) {c c' : Closure}
    (h : (agreement Unlabelled).ClosureMatch F c c') : padded.ClosureMatch (.alone F.size) c' c' := by
  obtain ⟨Δ, ⟨same, fits⟩, _⟩ := h.site
  rw [same] at fits
  exact ⟨⟨.same, chains_alone pos fits, function_same c'.decl, fun _ => nofun⟩, rfl⟩

theorem method_alone {F : Frames} (pos : 0 < F.size) {c c' : Closure}
    (h : (agreement Unlabelled).MethodMatch F c c') : padded.MethodMatch (.alone F.size) c' c' := by
  obtain ⟨Δ, b, ⟨same, fits⟩, _⟩ := h.site
  rw [same] at fits
  exact ⟨⟨.same, b, chains_alone pos fits, function_same c'.decl⟩, rfl⟩

theorem class_alone {F : Frames} (pos : 0 < F.size) {id : ClassId} {k k' : ClassObject}
    (h : (agreement Unlabelled).ClassMatch F id k k') : padded.ClassMatch (.alone F.size) id k' k' :=
  ⟨rfl, rfl, fun s hs => h.older s (h.superclass.trans hs),
    fun name => agreement.relOption_right (h.methods name) fun _ _ => method_alone pos⟩

theorem store_alone (hs : (agreement Unlabelled).Store t m m) : padded.Store (alone m) m m := by
  obtain ⟨frames, _, _, pos⟩ := hs.frames
  rw [← frames] at pos
  have extent : (alone m).extent = t.extent := hs.extent
  refine
    { left := rfl, right := rfl, extent := rfl, extent' := rfl
      frames := Padding.agrees_alone pos
      slots := extent ▸ hs.slots
      closures := fun id => agreement.relOption_right (hs.closures id) fun _ _ h => closure_alone pos (frames ▸ h)
      classes := fun id => agreement.relOption_right (hs.classes id) fun _ _ h => class_alone pos (frames ▸ h)
      instances := rfl
      fields := extent ▸ hs.fields
      printed := rfl, clock := rfl, ticks := rfl }

theorem at_alone (hs : (agreement Unlabelled).Store t m m) (ht : t.At Γ) : (alone m).At .same := by
  obtain ⟨frames, _, _, pos⟩ := hs.frames
  rw [← frames] at pos
  have fits := ht.2
  rw [← frames, ← hs.left] at fits
  exact chains_alone pos fits

theorem alike (hs : padded.Store u m₁ m₂) (later : (alone m).Later u) (safe : m.Faultless m₂)
    (pos : 0 < m.heap.frames.size) : m.Alike m₁ m₂ := by
  refine hs.alike lawful plain (later.left.trans later.right.symm) (fun id hid name => ?_)
    (fun Γ c code settled well fits => ⟨.same, stmts_same code, (chains_alone pos fits).mono later.world⟩)
    fun _ => safe
  have old := hs.frames.same id (Nat.lt_of_lt_of_le hid later.world.size) name
  rw [later.world.place id hid] at old
  exact old.symm

/-- Runs in lockstep that are begun in the machine `m` end alike. -/
theorem endsAlike (hs : (agreement Unlabelled).Store t m m) {r : Prop} {y y' : EStateM.Result Stop Machine Value}
    (h : padded.Outcome (fun _ => False) (alone m) r (fun _ => Eq) y y') (safe : m.EndsFaultless y') :
    m.EndsAlike y y' := by
  obtain ⟨frames, _, _, pos⟩ := hs.frames
  rw [← frames] at pos
  rcases h.endsAlike plain (fun _ _ _ h => h) (fun _ => safe) fun u m₁ m₂ later hs' safe' =>
    alike hs' later (safe' trivial) pos with ⟨_, _, hx, _⟩ | same
  · exact hx.elim
  · exact same

end padded

end LoxScript
