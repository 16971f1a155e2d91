import Mathlib
import LoxScript.Proofs.Grammar.Complete
import LoxScript.Proofs.Grammar.Moved
import LoxScript.Proofs.Grammar.Sound
import LoxScript.Token.Scan

/-!
# Reading and writing expressions

A tree is well shaped if every part binds as tightly as its place demands. Reading gives well-shaped trees, and such
a tree written down in the order of the text is what was read, token by token; conversely every well-shaped tree is
read from what it is written as. The lines of its tokens are those of the text.
-/

namespace LoxScript

namespace Expr

variable {ρ : Type}

mutual

def kinds : Expr ρ → List Token.Kind
  | .literal value => [value.kind]
  | .grouping inner => .symbol .leftParen :: (inner.kinds ++ [.symbol .rightParen])
  | .unary op _ operand => .symbol op.symbol :: operand.kinds
  | .binary op _ left right => left.kinds ++ .symbol op.symbol :: right.kinds
  | .logical op _ left right => left.kinds ++ .keyword op.keyword :: right.kinds
  | .var name _ => [.identifier name.text]
  | .assign name _ value => .identifier name.text :: .symbol .equal :: value.kinds
  | .call callee _ arguments =>
      callee.kinds ++ .symbol .leftParen :: (kindsAll arguments ++ [.symbol .rightParen])
  | .get object name => object.kinds ++ [.symbol .dot, .identifier name.text]
  | .set object name value =>
      object.kinds ++ .symbol .dot :: .identifier name.text :: .symbol .equal :: value.kinds
  | .this _ _ => [.keyword .thisWord]
  | .super _ method _ => [.keyword .superWord, .symbol .dot, .identifier method.text]

def kindsAll : List (Expr ρ) → List Token.Kind
  | [] => []
  | [e] => e.kinds
  | e :: e' :: es => e.kinds ++ .symbol .comma :: kindsAll (e' :: es)

end

def rank : Expr ρ → Rank
  | .literal _ | .grouping _ | .var _ _ | .this _ _ | .super _ _ _ => .operand
  | .call _ _ _ | .get _ _ => .call
  | .unary _ _ _ => .unary
  | .binary op _ _ _ => .joined (Join.binary op).level
  | .logical op _ _ _ => .joined (Join.logical op).level
  | .assign _ _ _ | .set _ _ _ => .assignment

theorem rank_build (j : Join) (line : Int) (a b : Expr ρ) : (j.build line a b).rank = .joined j.level := by
  cases j <;> rfl

theorem kinds_build (j : Join) (line : Int) (a b : Expr ρ) :
    (j.build line a b).kinds = a.kinds ++ j.kind :: b.kinds := by
  cases j <;> simp [Join.build, Join.kind, kinds]

/-- Every part of the tree binds as tightly as its place demands. Two-sided operators group to the left. -/
inductive WellShaped : Expr Unit → Prop where
  | literal {v} : WellShaped (.literal v)
  | var {x ref} : WellShaped (.var x ref)
  | this {l ref} : WellShaped (.this l ref)
  | super {l m ref} : WellShaped (.super l m ref)
  | grouping {e} : WellShaped e → WellShaped (.grouping e)
  | get {o x} : WellShaped o → Rank.call.tightness ≤ o.rank.tightness → WellShaped (.get o x)
  | call {e l es} : WellShaped e → Rank.call.tightness ≤ e.rank.tightness → (∀ a ∈ es, WellShaped a) →
      es.length ≤ maxArguments → WellShaped (.call e l es)
  | unary {op l e} : WellShaped e → Rank.unary.tightness ≤ e.rank.tightness → WellShaped (.unary op l e)
  | binary {op l a b} : WellShaped a → (Rank.joined (Join.binary op).level).tightness ≤ a.rank.tightness →
      WellShaped b → (Rank.joined (Join.binary op).level).tightness < b.rank.tightness →
      WellShaped (.binary op l a b)
  | logical {op l a b} : WellShaped a → (Rank.joined (Join.logical op).level).tightness ≤ a.rank.tightness →
      WellShaped b → (Rank.joined (Join.logical op).level).tightness < b.rank.tightness →
      WellShaped (.logical op l a b)
  | assign {x ref e} : WellShaped e → WellShaped (.assign x ref e)
  | set {o x e} : WellShaped o → Rank.call.tightness ≤ o.rank.tightness → WellShaped e →
      WellShaped (.set o x e)

theorem WellShaped.build {j : Join} {line : Int} {a b : Expr Unit} (ha : a.WellShaped)
    (hla : (Rank.joined j.level).tightness ≤ a.rank.tightness) (hb : b.WellShaped)
    (hlb : (Rank.joined j.level).tightness < b.rank.tightness) : (j.build line a b).WellShaped := by
  cases j with
  | logical op => exact .logical ha hla hb hlb
  | binary op => exact .binary ha hla hb hlb

/-! ## From texts to trees -/

/-- Lists with commas are written item by item. -/
theorem kindsAll_of_commas {parts : List (List Token × Expr Unit)} {v : List Token}
    (commas : Commas (parts.map Prod.fst) v) (h : ∀ a ∈ parts, a.1.map Token.kind = a.2.kinds) :
    v.map Token.kind = kindsAll (parts.map Prod.snd) := by
  induction parts generalizing v with
  | nil =>
      cases commas with
      | nil => rfl
  | cons a parts ih =>
      cases parts with
      | nil =>
          cases commas with
          | one => exact h a List.mem_cons_self
      | cons b parts =>
          cases commas with
          | cons ht commas =>
              have rest := ih commas fun x hx => h x (List.mem_cons_of_mem _ hx)
              rw [List.map_append, List.map_cons, rest, ht, h a List.mem_cons_self]
              rfl

/-- What is spelled is well shaped, and is written as it is spelled. -/
theorem Spelled.wellShaped {r : Rank} {w : List Token} {e : Expr Unit} (h : e.Spelled r w) :
    e.WellShaped ∧ r.tightness ≤ e.rank.tightness ∧ w.map Token.kind = e.kinds := by
  induction h with
  | literal ht => exact ⟨.literal, Nat.le_refl _, by simp [kinds, ht]⟩
  | var hx => exact ⟨.var, Nat.le_refl _, by simp [kinds, (Token.kind_of_name? hx).1]⟩
  | this ht => exact ⟨.this, Nat.le_refl _, by simp [kinds, ht]⟩
  | super ht hd hx => exact ⟨.super, Nat.le_refl _, by simp [kinds, ht, hd, (Token.kind_of_name? hx).1]⟩
  | grouping hl _ hr ih =>
      obtain ⟨shaped, _, same⟩ := ih
      exact ⟨.grouping shaped, Nat.le_refl _, by simp [kinds, hl, hr, same]⟩
  | get _ hd hx ih =>
      obtain ⟨shaped, tight, same⟩ := ih
      exact ⟨.get shaped tight, Nat.le_refl _, by simp [kinds, hd, same, (Token.kind_of_name? hx).1]⟩
  | @call _ _ _ _ _ parts _ hl _ commas few hr ih iha =>
      obtain ⟨shaped, tight, same⟩ := ih
      have items := kindsAll_of_commas commas fun a ha => (iha a ha).2.2
      refine ⟨.call shaped tight (fun a ha => ?_) (by simpa using few), Nat.le_refl _,
        by simp [kinds, hl, hr, same, items]⟩
      obtain ⟨x, hx, rfl⟩ := List.mem_map.1 ha
      exact (iha x hx).1
  | unary ht _ ih =>
      obtain ⟨shaped, tight, same⟩ := ih
      exact ⟨.unary shaped tight, Nat.le_refl _, by simp [kinds, ht, same]⟩
  | @join _ _ _ _ _ j _ ht _ iha ihb =>
      obtain ⟨shapedA, tightA, sameA⟩ := iha
      obtain ⟨shapedB, tightB, sameB⟩ := ihb
      have strict := Nat.lt_of_lt_of_le (Rank.tightness_joined_lt j.level) tightB
      refine ⟨.build shapedA tightA shapedB strict, Nat.le_of_eq (by rw [rank_build]), ?_⟩
      rw [kinds_build]
      simp [sameA, sameB, ht]
  | assign hx ht _ ih =>
      obtain ⟨shaped, _, same⟩ := ih
      exact ⟨.assign shaped, Nat.le_refl _, by simp [kinds, ht, same, (Token.kind_of_name? hx).1]⟩
  | set _ hd hx ht _ iho ihe =>
      obtain ⟨shapedO, tightO, sameO⟩ := iho
      obtain ⟨shapedE, _, sameE⟩ := ihe
      refine ⟨.set shapedO tightO shapedE, Nat.le_refl _, ?_⟩
      simp [kinds, hd, ht, sameO, sameE, (Token.kind_of_name? hx).1]
  | @tighter r _ _ _ ih =>
      obtain ⟨shaped, tight, same⟩ := ih
      refine ⟨shaped, Nat.le_trans ?_ tight, same⟩
      rcases r.tightness_tighter with rfl | next
      · exact Nat.le_refl _
      · omega

/-! ## From trees to texts -/

def SpelledUpToLines (w : List Token) (e : Expr Unit) : Prop :=
  ∃ e' : Expr Unit, e'.Spelled e.rank w ∧ e'.mapLines (fun _ => 0) = e.mapLines (fun _ => 0)

theorem SpelledUpToLines.loosen {w : List Token} {e : Expr Unit} {r : Rank} (h : SpelledUpToLines w e)
    (hr : r.tightness ≤ e.rank.tightness) :
    ∃ e' : Expr Unit, e'.Spelled r w ∧ e'.mapLines (fun _ => 0) = e.mapLines (fun _ => 0) := by
  obtain ⟨e', spelled, same⟩ := h
  exact ⟨e', spelled.loosen hr, same⟩

theorem assignment_le (r : Rank) : Rank.assignment.tightness ≤ r.tightness :=
  r.tightness_pos

/-- Arguments are read from what they are written as. -/
theorem commas_of_kindsAll {es : List (Expr Unit)}
    (h : ∀ e ∈ es, ∀ w : List Token, w.map Token.kind = e.kinds → SpelledUpToLines w e) {v : List Token}
    (hv : v.map Token.kind = kindsAll es) : ∃ parts : List (List Token × Expr Unit),
      (∀ a ∈ parts, a.2.Spelled .assignment a.1) ∧ Commas (parts.map Prod.fst) v ∧
        parts.length = es.length ∧ mapLinesAll (fun _ => 0) (parts.map Prod.snd) = mapLinesAll (fun _ => 0) es := by
  induction es generalizing v with
  | nil =>
      obtain rfl := List.map_eq_nil_iff.1 hv
      exact ⟨[], by simp, .nil, rfl, rfl⟩
  | cons e es ih =>
      cases es with
      | nil =>
          obtain ⟨e', spelled, same⟩ := (h e List.mem_cons_self v hv).loosen (assignment_le _)
          exact ⟨[(v, e')], by simpa using spelled, .one, rfl, by simp [mapLinesAll, same]⟩
      | cons e₂ es =>
          rw [kindsAll] at hv
          obtain ⟨u, v', rfl, hu, hv'⟩ := List.map_eq_append_iff.1 hv
          obtain ⟨t, v, rfl, ht, hv⟩ := List.map_eq_cons_iff.1 hv'
          obtain ⟨e', spelled, same⟩ := (h e List.mem_cons_self u hu).loosen (assignment_le _)
          obtain ⟨parts, hp, commas, count, rest⟩ := ih (fun x hx => h x (List.mem_cons_of_mem _ hx)) hv
          refine ⟨(u, e') :: parts, ?_, ?_, by simp [count], ?_⟩
          · intro a ha
            rcases List.mem_cons.1 ha with rfl | ha
            · exact spelled
            · exact hp a ha
          · cases parts with
            | nil => simp at count
            | cons p parts => exact .cons ht commas
          · rw [List.map_cons, mapLinesAll, rest, same]
            rfl

theorem spelled_build (j : Join) (line : Int) {a b : Expr Unit}
    (ha : ∀ {w : List Token}, w.map Token.kind = a.kinds → SpelledUpToLines w a)
    (tightA : (Rank.joined j.level).tightness ≤ a.rank.tightness)
    (hb : ∀ {w : List Token}, w.map Token.kind = b.kinds → SpelledUpToLines w b)
    (tightB : (Rank.joined j.level).tightness < b.rank.tightness) {w : List Token}
    (hw : w.map Token.kind = (j.build line a b).kinds) : SpelledUpToLines w (j.build line a b) := by
  rw [kinds_build] at hw
  obtain ⟨u, w, rfl, hu, hw⟩ := List.map_eq_append_iff.1 hw
  obtain ⟨t, v, rfl, ht, hv⟩ := List.map_eq_cons_iff.1 hw
  have tightB' : (Rank.joined j.level).tighter.tightness ≤ b.rank.tightness := by
    rcases (Rank.joined j.level).tightness_tighter with same | next
    · cases same
    · omega
  obtain ⟨a', spelledA, sameA⟩ := (ha hu).loosen tightA
  obtain ⟨b', spelledB, sameB⟩ := (hb hv).loosen tightB'
  have spelled := Spelled.join spelledA ht spelledB
  rw [← rank_build j line a b] at spelled
  exact ⟨_, spelled, by rw [mapLines_build, mapLines_build, sameA, sameB]⟩

/-- A well-shaped tree is spelled by what it is written as, with the lines of the tokens. -/
theorem WellShaped.spelled {e : Expr Unit} (h : e.WellShaped) {w : List Token} (hw : w.map Token.kind = e.kinds) :
    SpelledUpToLines w e := by
  induction h generalizing w with
  | literal =>
      obtain ⟨t, rfl, ht⟩ := List.map_eq_singleton_iff.1 hw
      exact ⟨_, .literal ht, rfl⟩
  | var =>
      obtain ⟨t, rfl, ht⟩ := List.map_eq_singleton_iff.1 hw
      exact ⟨_, .var (Token.name?_of_kind ht), rfl⟩
  | this =>
      obtain ⟨t, rfl, ht⟩ := List.map_eq_singleton_iff.1 hw
      exact ⟨_, .this ht, rfl⟩
  | super =>
      obtain ⟨t, w, rfl, ht, hw⟩ := List.map_eq_cons_iff.1 hw
      obtain ⟨d, w, rfl, hd, hw⟩ := List.map_eq_cons_iff.1 hw
      obtain ⟨n, rfl, hn⟩ := List.map_eq_singleton_iff.1 hw
      exact ⟨_, .super ht hd (Token.name?_of_kind hn), rfl⟩
  | @grouping e _ ih =>
      obtain ⟨l, w, rfl, hl, hw⟩ := List.map_eq_cons_iff.1 hw
      obtain ⟨v, w, rfl, hv, hw⟩ := List.map_eq_append_iff.1 hw
      obtain ⟨r, rfl, hr⟩ := List.map_eq_singleton_iff.1 hw
      obtain ⟨e', spelled, same⟩ := (ih hv).loosen (assignment_le _)
      exact ⟨_, .grouping hl spelled hr, by simp [mapLines, same]⟩
  | @get o x _ tight ih =>
      obtain ⟨v, w, rfl, hv, hw⟩ := List.map_eq_append_iff.1 hw
      obtain ⟨d, w, rfl, hd, hw⟩ := List.map_eq_cons_iff.1 hw
      obtain ⟨n, rfl, hn⟩ := List.map_eq_singleton_iff.1 hw
      obtain ⟨o', spelled, same⟩ := (ih hv).loosen tight
      exact ⟨_, .get spelled hd (Token.name?_of_kind hn), by simp [mapLines, same, Name.mapLine]⟩
  | @call e l es _ tight _ few ih iha =>
      obtain ⟨u, w, rfl, hu, hw⟩ := List.map_eq_append_iff.1 hw
      obtain ⟨l, w, rfl, hl, hw⟩ := List.map_eq_cons_iff.1 hw
      obtain ⟨v, w, rfl, hv, hw⟩ := List.map_eq_append_iff.1 hw
      obtain ⟨r, rfl, hr⟩ := List.map_eq_singleton_iff.1 hw
      obtain ⟨e', spelled, same⟩ := (ih hu).loosen tight
      obtain ⟨parts, hp, commas, count, items⟩ := commas_of_kindsAll (fun a ha w hw => iha a ha hw) hv
      exact ⟨_, .call spelled hl hp commas (count ▸ few) hr, by simp [mapLines, same, items]⟩
  | @unary op l e _ tight ih =>
      obtain ⟨t, w, rfl, ht, hw⟩ := List.map_eq_cons_iff.1 hw
      obtain ⟨e', spelled, same⟩ := (ih hw).loosen tight
      exact ⟨_, .unary ht spelled, by simp [mapLines, same]⟩
  | @binary op l _ _ _ tightA _ tightB iha ihb => exact spelled_build (.binary op) l iha tightA ihb tightB hw
  | @logical op l _ _ _ tightA _ tightB iha ihb => exact spelled_build (.logical op) l iha tightA ihb tightB hw
  | @assign x ref e _ ih =>
      obtain ⟨n, w, rfl, hn, hw⟩ := List.map_eq_cons_iff.1 hw
      obtain ⟨t, w, rfl, ht, hw⟩ := List.map_eq_cons_iff.1 hw
      obtain ⟨e', spelled, same⟩ := (ih hw).loosen (assignment_le _)
      exact ⟨_, .assign (Token.name?_of_kind hn) ht spelled, by simp [mapLines, same, Name.mapLine]⟩
  | @set o x e _ tight _ iho ihe =>
      obtain ⟨u, w, rfl, hu, hw⟩ := List.map_eq_append_iff.1 hw
      obtain ⟨d, w, rfl, hd, hw⟩ := List.map_eq_cons_iff.1 hw
      obtain ⟨n, w, rfl, hn, hw⟩ := List.map_eq_cons_iff.1 hw
      obtain ⟨t, w, rfl, ht, hw⟩ := List.map_eq_cons_iff.1 hw
      obtain ⟨o', spelledO, sameO⟩ := (iho hu).loosen tight
      obtain ⟨e', spelledE, sameE⟩ := (ihe hw).loosen (assignment_le _)
      exact ⟨_, .set spelledO hd (Token.name?_of_kind hn) ht spelledE, by simp [mapLines, sameO, sameE, Name.mapLine]⟩

/-- Reading an expression and writing it in the order of the text are inverse to each other. Every text that is
accepted gives a well-shaped tree that is written as the text; every well-shaped tree is read from whatever it is
written as, up to the lines of its tokens. -/
theorem parse?_kinds :
    (∀ (ts : TokenList) (e : Expr Unit), Expr.parse? ts = ⟨some e, []⟩ →
      e.WellShaped ∧ e.kinds = ts.tokens.map Token.kind) ∧
    ∀ e : Expr Unit, e.WellShaped → ∀ ts : TokenList, ts.tokens.map Token.kind = e.kinds →
      ∃ e' : Expr Unit, Expr.parse? ts = ⟨some e', []⟩ ∧ e'.mapLines (fun _ => 0) = e.mapLines (fun _ => 0) := by
  constructor
  · intro ts e h
    obtain ⟨shaped, _, same⟩ := (spelled_of_parse? h).wellShaped
    exact ⟨shaped, same.symm⟩
  · intro e shaped ts hw
    obtain ⟨e', spelled, same⟩ := (shaped.spelled hw).loosen (assignment_le _)
    exact ⟨e', spelled.parse?, same⟩

/-- A sign, two levels of operators and a property on the left of an assignment. -/
theorem parse?_kinds_set :
    Expr.parse? (Scan.ofString "a.b=-c+nil*(d)").list =
      ⟨some (.set (.var ⟨"a", 1⟩ ()) ⟨"b", 1⟩ (.binary .plus 1 (.unary .negate 1 (.var ⟨"c", 1⟩ ()))
        (.binary .star 1 (.literal .nil) (.grouping (.var ⟨"d", 1⟩ ()))))), []⟩ ∧
    WellShaped (.set (.var ⟨"a", 1⟩ ()) ⟨"b", 1⟩ (.binary .plus 1 (.unary .negate 1 (.var ⟨"c", 1⟩ ()))
      (.binary .star 1 (.literal .nil) (.grouping (.var ⟨"d", 1⟩ ()))))) ∧
    ∃ e' : Expr Unit, Expr.parse? (Scan.ofString "a.b=\n-c+nil*\n(d)").list = ⟨some e', []⟩ ∧
      e'.mapLines (fun _ => 0) = .set (.var ⟨"a", 0⟩ ()) ⟨"b", 0⟩ (.binary .plus 0 (.unary .negate 0 (.var ⟨"c", 0⟩ ()))
        (.binary .star 0 (.literal .nil) (.grouping (.var ⟨"d", 0⟩ ())))) := by
  have parsed : Expr.parse? (Scan.ofString "a.b=-c+nil*(d)").list =
      ⟨some (.set (.var ⟨"a", 1⟩ ()) ⟨"b", 1⟩ (.binary .plus 1 (.unary .negate 1 (.var ⟨"c", 1⟩ ()))
        (.binary .star 1 (.literal .nil) (.grouping (.var ⟨"d", 1⟩ ()))))), []⟩ := by cbv
  obtain ⟨shaped, _⟩ := parse?_kinds.1 _ _ parsed
  exact ⟨parsed, shaped, parse?_kinds.2 _ shaped (Scan.ofString "a.b=\n-c+nil*\n(d)").list (by cbv)⟩

end Expr

end LoxScript
