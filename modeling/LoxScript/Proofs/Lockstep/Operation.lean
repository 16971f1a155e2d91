import LoxScript.Proofs.Lockstep.Store

/-!
# The operations of the machine in lockstep

Reaching variables, opening scopes, making objects and calling functions, for any way to run the bodies of
functions.
-/

namespace LoxScript.Lockstep

variable {S : Lockstep} {X : Stop → Prop} {α β : Type} {t u : S.Stage} {Γ Γ₁ : S.Site} {r : Prop}

/-! ## Variables -/

theorem InStep.operate (L : S.Lawful) {l l' : Int} (lexeme : String) (h : S.line Γ l l')
    {x : Except RuntimeCause Value} (hx : ∀ v, x = .ok v → ∃ l, v = .plain l) :
    S.InStep X t r S.Same (Run.operate lexeme l x) (Run.operate lexeme l' x) := by
  cases x with
  | ok v =>
      obtain ⟨l, rfl⟩ := hx v rfl
      exact .pure L ⟨rfl, trivial⟩
  | error cause => exact .fail L cause lexeme h

theorem InStep.lookUp (L : S.Lawful) {n n' : Name} {ref ref' : Binding} (ht : t.At Γ)
    (h : S.read Γ (n, ref) (n', ref')) : S.InStep X t r S.Same (Run.lookUp n ref) (Run.lookUp n' ref') := by
  intro m m' hm
  have ha := L.lookUp hm.frames ht h
  rw [← hm.left, ← hm.right] at ha
  rw [Run.lookUp_eq, Run.lookUp_eq]
  generalize hl : m.heap.frames.lookUp m.chain n ref = a at ha
  generalize m'.heap.frames.lookUp m'.chain n' ref' = a' at ha
  cases ha with
  | ok hv =>
      subst hv
      obtain ⟨id, hid⟩ := Frames.lookUp_eq_ok hl
      exact .ok (.refl L t) hm ⟨rfl, hm.slots _ _ _ hid⟩
  | error he =>
      rw [Run.access_error, Run.access_error]
      exact .halted (.refl L t) hm he

theorem InStep.store (L : S.Lawful) {n n' : Name} {ref ref' : Binding} (ht : t.At Γ)
    (h : S.write Γ (n, ref) (n', ref')) {v : Value} (hv : t.extent.Holds v) :
    S.InStep X t r (fun _ _ _ => True) (Run.store n ref v) (Run.store n' ref' v) := by
  intro m m' hm
  have ha := L.target hm.frames ht h
  rw [← hm.left, ← hm.right] at ha
  generalize hl : m.heap.frames.target m.chain n ref = a at ha
  generalize hl' : m'.heap.frames.target m'.chain n' ref' = a' at ha
  cases ha with
  | ok hid =>
      rw [Run.store_of_ok v hl, Run.store_of_ok v hl']
      obtain ⟨w, hw, hF⟩ := hid v
      have held : ∀ u, Slot.value v = .value u → t.extent.Holds u := by
        rintro u ⟨⟩
        exact hv
      exact .ok (.atWorld t hw) (hm.reframe L hw hF (SlotsHeld.define hm.slots _ _ held)) trivial
  | error he =>
      rw [Run.store_of_error v hl, Run.store_of_error v hl']
      exact .halted (.refl L t) hm he

theorem InStep.lookUpOwn (L : S.Lawful) {c c' : Chain} {d d' : Int} {name : String} {K : Value → Prop}
    (h : ∀ m m', S.Store t m m' →
      S.SameOwn K (m.heap.frames.own? c d name) (m'.heap.frames.own? c' d' name)) :
    S.InStep X t r (fun u v v' => S.Same u v v' ∧ (S.fault ∨ K v)) (Run.lookUpOwn c d name)
      (Run.lookUpOwn c' d' name) := by
  intro m m' hm
  have ho := h m m' hm
  cases hv : m.heap.frames.own? c d name with
  | some v =>
      have hv' : m'.heap.frames.own? c' d' name = some v := by rw [← ho.same, hv]
      rw [Run.lookUpOwn_of_some hv, Run.lookUpOwn_of_some hv']
      obtain ⟨id, _, hid⟩ := Frames.slotAt_eq_ok (Frames.own?_eq_some.1 hv)
      refine .ok (.refl L t) hm ⟨⟨rfl, hm.slots _ _ _ hid⟩, ?_⟩
      rcases ho.sound with hf | ⟨u, hu, hk⟩
      · exact .inl hf
      · rw [hv] at hu
        cases hu
        exact .inr hk
  | none =>
      have hv' : m'.heap.frames.own? c' d' name = none := by rw [← ho.same, hv]
      obtain ⟨f, hf⟩ := Run.lookUpOwn_of_none hv
      obtain ⟨f', hf'⟩ := Run.lookUpOwn_of_none hv'
      rw [hf, hf']
      rcases ho.sound with hfault | ⟨u, hu, _⟩
      · exact .halted (.refl L t) hm (.fault hfault)
      · rw [hv] at hu
        cases hu

/-- Both machines bind a declared variable in their innermost frames. -/
theorem Store.define (L : S.Lawful) {m m' : Machine} (hm : S.Store t m m') {n n' : Name} (ht : t.At Γ)
    (h : S.declare Γ n n' Γ₁) {slot : Slot} (hslot : ∀ v, slot = .value v → t.extent.Holds v) :
    ∃ (u : S.Stage) (id id' : FrameId), t.Later u ∧ u.extent = t.extent ∧ u.At Γ₁ ∧
      Run.define n.text slot m = .ok () (Run.stored m id n.text slot) ∧
      Run.define n'.text slot m' = .ok () (Run.stored m' id' n'.text slot) ∧
      S.Store u (Run.stored m id n.text slot) (Run.stored m' id' n'.text slot) := by
  obtain ⟨id, outer, id', outer', hc, hc', _, _⟩ := L.chain_head hm.frames ht
  have ht' := ht
  unfold Stage.At at ht'
  rw [hc, hc'] at ht'
  obtain ⟨w, hw, hF, hchain⟩ := L.declare slot hm.frames ht' h
  refine ⟨{ t with world := w }, id, id', .atWorld t hw, rfl, ?_, ?_, ?_, ?_⟩
  · unfold Stage.At
    dsimp only
    rw [hc, hc']
    exact hchain
  · exact Run.define_eq _ _ (hm.left.trans hc)
  · exact Run.define_eq _ _ (hm.right.trans hc')
  · exact hm.reframe L hw hF (SlotsHeld.define hm.slots _ _ hslot)

theorem InStep.define (L : S.Lawful) {n n' : Name} (ht : t.At Γ) (h : S.declare Γ n n' Γ₁) {slot : Slot}
    (hslot : ∀ v, slot = .value v → t.extent.Holds v) :
    S.InStep X t r (fun u _ _ => u.At Γ₁) (Run.define n.text slot) (Run.define n'.text slot) := by
  intro m m' hm
  obtain ⟨u, id, id', hu, _, hat, hd, hd', hs⟩ := hm.define L ht h hslot
  rw [hd, hd']
  exact .ok hu hs hat

/-! ## Scopes -/

/-- New innermost frames, in which code of the site `Γ₁` may run. -/
structure FramesAdded (t : S.Stage) (Γ₁ : S.Site) (c c' : Chain) (frame frame' : Frame) : Prop where
  added : ∀ F F', S.frames t.world F F' → ∃ w, S.le t.world w ∧ S.frames w (F.push frame) (F'.push frame') ∧
    S.chain w Γ₁ (F.size :: c) (F'.size :: c')
  held : ∀ name v, frame.find? name = some (.value v) → t.extent.Holds v

theorem InStep.newFrame (L : S.Lawful) {c c' : Chain} {frame frame' : Frame}
    (h : FramesAdded t Γ₁ c c' frame frame') :
    S.InStep X t r (fun u id id' => S.chain u.world Γ₁ (id :: c) (id' :: c')) (Run.newFrame frame)
      (Run.newFrame frame') := by
  intro m m' hm
  obtain ⟨w, hw, hF, hchain⟩ := h.added _ _ hm.frames
  exact .ok (.atWorld t hw) (hm.reframe L hw hF (SlotsHeld.push hm.slots h.held)) hchain

theorem InStep.executeBlock (L : S.Lawful) {execute execute' : Stmt Binding → Run Value}
    (hx : ∀ u Γ s s' Γ₁, S.stmt Γ s s' Γ₁ → u.At Γ →
      S.InStep X u (S.returns Γ) (S.Done Γ₁) (execute s) (execute' s'))
    {c c' : Chain} {frame frame' : Frame} {body body' : List (Stmt Binding)}
    (hf : FramesAdded t Γ₁ c c' frame frame') (hr : S.returns Γ₁ → r) (hb : S.Stmts Γ₁ body body') :
    S.InStep X t r (fun _ _ _ => True) (Run.executeBlock execute c frame body)
      (Run.executeBlock execute' c' frame' body') := by
  refine (InStep.newFrame L hf).bind L fun u id id' hu hchain => ?_
  have inner : S.InStep X (u.within (id :: c) (id' :: c')) r (fun _ _ _ => True)
      (Run.executeAll execute body) (Run.executeAll execute' body') := by
    refine InStep.executeAll L (fun v Γ s s' Γ₂ _ hs hr' hat m m' hm => ?_) hb hr hchain
    exact (hx v Γ s s' Γ₂ hs hat m m' hm).mono hr' fun _ _ _ _ h => h
  exact inner.inChain fun _ _ _ _ _ => trivial

end LoxScript.Lockstep
