import LoxScript.Proofs.Grammar.Spelled
import LoxScript.Proofs.Tree.Lines

/-!
# Moving a text

Tokens whose lines are changed spell the tree whose lines are changed alike, and texts that spell programs spell, one
after the other, both programs.
-/

namespace LoxScript

def Token.mapLine (f : Int → Int) (t : Token) : Token :=
  { t with line := f t.line }

variable (f : Int → Int) {w : List Token}

namespace Token

theorem kind_mapLine {t : Token} {k : Kind} (h : t.kind = k) : (t.mapLine f).kind = k := h

theorem name?_mapLine {t : Token} {x : Name} (h : t.name? = some x) : (t.mapLine f).name? = some (x.mapLine f) := by
  obtain ⟨hk, hl⟩ := kind_of_name? h
  unfold name?
  rw [kind_mapLine f hk]
  simp [Name.mapLine, mapLine, hl]

end Token

open Token (kind_mapLine name?_mapLine)

theorem Commas.mapLine {ws : List (List Token)} (h : Commas ws w) :
    Commas (ws.map (List.map (Token.mapLine f))) (w.map (Token.mapLine f)) := by
  induction h with
  | nil => exact .nil
  | one => exact .one
  | cons ht _ ih => simpa using Commas.cons (kind_mapLine f ht) ih

def mapLinesOf {α : Type} (f : Int → Int) (g : α → α) (parts : List (List Token × α)) : List (List Token × α) :=
  parts.map fun p => (p.1.map (Token.mapLine f), g p.2)

section Parts

variable {α : Type} (g : α → α) {parts : List (List Token × α)}

theorem length_mapLinesOf : (mapLinesOf f g parts).length = parts.length :=
  List.length_map _

theorem mapLinesOf_fst :
    (mapLinesOf f g parts).map Prod.fst = (parts.map Prod.fst).map (List.map (Token.mapLine f)) := by
  simp [mapLinesOf, Function.comp_def]

theorem mapLinesOf_snd : (mapLinesOf f g parts).map Prod.snd = (parts.map Prod.snd).map g := by
  simp [mapLinesOf]

theorem flatten_mapLinesOf :
    ((mapLinesOf f g parts).map Prod.fst).flatten = (parts.map Prod.fst).flatten.map (Token.mapLine f) := by
  rw [mapLinesOf_fst, List.map_flatten]

theorem Commas.mapLinesOf (h : Commas (parts.map Prod.fst) w) :
    Commas ((mapLinesOf f g parts).map Prod.fst) (w.map (Token.mapLine f)) := by
  rw [mapLinesOf_fst]
  exact h.mapLine f

theorem forall_mapLinesOf {P : List Token → α → Prop} (h : ∀ p ∈ parts, P (p.1.map (Token.mapLine f)) (g p.2)) :
    ∀ p ∈ mapLinesOf f g parts, P p.1 p.2 :=
  List.forall_mem_map.2 h

end Parts

/-! ## Expressions -/

namespace Expr

theorem mapLines_build {ρ : Type} (j : Join) (line : Int) (a b : Expr ρ) :
    (j.build line a b).mapLines f = j.build (f line) (a.mapLines f) (b.mapLines f) := by
  cases j <;> rfl

theorem Spelled.mapLines {r : Rank} {e : Expr Unit} (h : e.Spelled r w) :
    (e.mapLines f).Spelled r (w.map (Token.mapLine f)) := by
  induction h with
  | literal ht => exact .literal ht
  | var hn => exact .var (name?_mapLine f hn)
  | this ht => exact .this (kind_mapLine f ht)
  | super ht hd hn => exact .super (kind_mapLine f ht) hd (name?_mapLine f hn)
  | grouping hl _ hr ih =>
      simpa [Expr.mapLines] using Spelled.grouping (kind_mapLine f hl) ih (kind_mapLine f hr)
  | get _ hd hn ih => simpa [Expr.mapLines] using Spelled.get ih (kind_mapLine f hd) (name?_mapLine f hn)
  | call _ hl _ commas few hr ih iharguments =>
      have inner := forall_mapLinesOf f (Expr.mapLines f) iharguments
      have whole := Spelled.call ih (kind_mapLine f hl) inner (commas.mapLinesOf f _)
        (by rwa [length_mapLinesOf]) (kind_mapLine f hr)
      simpa [Expr.mapLines, mapLinesAll_eq_map, mapLinesOf_snd, Token.mapLine] using whole
  | unary ht _ ih => exact .unary (kind_mapLine f ht) ih
  | join _ ht _ iha ihb =>
      rw [mapLines_build]
      simpa [Token.mapLine] using Spelled.join iha (kind_mapLine f ht) ihb
  | assign hn hq _ ih => exact .assign (name?_mapLine f hn) hq ih
  | set _ hd hn hq _ iho ih =>
      simpa [Expr.mapLines] using Spelled.set iho (kind_mapLine f hd) (name?_mapLine f hn) (kind_mapLine f hq) ih
  | tighter _ ih => exact .tighter ih

end Expr

/-! ## Statements -/

theorem Optionally.mapLines {o : Option (Expr Unit)} (h : Optionally (Expr.Spelled .assignment) w o) :
    Optionally (Expr.Spelled .assignment) (w.map (Token.mapLine f)) (o.map (Expr.mapLines f)) := by
  cases h with
  | absent => exact .absent
  | present he => exact .present (he.mapLines f)

theorem VarSpelled.mapLines {s : Stmt Unit} (h : VarSpelled w s) :
    VarSpelled (w.map (Token.mapLine f)) (s.mapLines f) := by
  cases h with
  | plain hn hs => exact .plain (name?_mapLine f hn) hs
  | initialized hn hq he hs =>
      have whole := VarSpelled.initialized (name?_mapLine f hn) (kind_mapLine f hq) (he.mapLines f) (kind_mapLine f hs)
      simpa [Stmt.mapLines] using whole

theorem InitializerSpelled.mapLines {i : Option (Stmt Unit)} (h : InitializerSpelled w i) :
    InitializerSpelled (w.map (Token.mapLine f)) (i.map (Stmt.mapLines f)) := by
  cases h with
  | absent hs => exact .absent (kind_mapLine f hs)
  | var ht hv => exact .var (kind_mapLine f ht) (hv.mapLines f)
  | expression he hs =>
      simpa [Stmt.mapLines] using InitializerSpelled.expression (he.mapLines f) (kind_mapLine f hs)

theorem SuperclassSpelled.mapLines {o : Option (Name × Unit)} (h : SuperclassSpelled w o) :
    SuperclassSpelled (w.map (Token.mapLine f)) (o.map fun p => (p.1.mapLine f, p.2)) := by
  cases h with
  | absent => exact .absent
  | present hs hn => exact .present (kind_mapLine f hs) (name?_mapLine f hn)

theorem Stmt.mapLines_forLoop {ρ : Type} (i : Option (Stmt ρ)) (c n : Option (Expr ρ)) (s : Stmt ρ) :
    (Stmt.forLoop i c n s).mapLines f =
      Stmt.forLoop (i.map (Stmt.mapLines f)) (c.map (Expr.mapLines f)) (n.map (Expr.mapLines f)) (s.mapLines f) := by
  cases i <;> cases c <;> cases n <;> rfl

namespace CallableText

def mapLines (m : CallableText) : CallableText where
  header := m.header.map (Token.mapLine f)
  name := m.name.mapLine f
  params := m.params.map (Name.mapLine f)
  body := mapLinesOf f (Stmt.mapLines f) m.body
  close := m.close.mapLine f

theorem tokens_mapLines (m : CallableText) : (m.mapLines f).tokens = m.tokens.map (Token.mapLine f) := by
  simp [tokens, mapLines, flatten_mapLinesOf]

theorem decl_mapLines (m : CallableText) : (m.mapLines f).decl = m.decl.mapLines f := by
  simp [decl, mapLines, mapLinesOf_snd, FunctionDecl.mapLines, Stmt.mapLinesAll_eq_map]

theorem Header.mapLines {v : List Token} {x : Name} {params : List Name} (h : Header v x params) :
    Header (v.map (Token.mapLine f)) (x.mapLine f) (params.map (Name.mapLine f)) := by
  cases h with
  | @mk n x l v r b params hn hl hparams commas few hr hb =>
      have named : ∀ p ∈ mapLinesOf f (Name.mapLine f) params, ∃ t, p.1 = [t] ∧ t.name? = some p.2 := by
        intro p hp
        obtain ⟨q, hq, rfl⟩ := List.mem_map.1 hp
        obtain ⟨t, ht, hx⟩ := hparams q hq
        exact ⟨t.mapLine f, by simp [ht], name?_mapLine f hx⟩
      have whole := Header.mk (name?_mapLine f hn) (kind_mapLine f hl) named (commas.mapLinesOf f _)
        (by rwa [length_mapLinesOf]) (kind_mapLine f hr) (kind_mapLine f hb)
      simpa [mapLinesOf_snd] using whole

theorem Framed.mapLines {m : CallableText} (h : m.Framed) : (m.mapLines f).Framed :=
  ⟨h.header.mapLines f, kind_mapLine f h.close⟩

end CallableText

namespace Stmt.Spelled

theorem mapLines {form : Form} {s : Stmt Unit} (h : s.Spelled form w) :
    (s.mapLines f).Spelled form (w.map (Token.mapLine f)) := by
  induction h with
  | expression he hs => simpa [Stmt.mapLines] using Spelled.expression (he.mapLines f) (kind_mapLine f hs)
  | print ht he hs =>
      simpa [Stmt.mapLines] using Spelled.print (kind_mapLine f ht) (he.mapLines f) (kind_mapLine f hs)
  | ret ht ho hs =>
      simpa [Stmt.mapLines, Token.mapLine] using
        Spelled.ret (kind_mapLine f ht) (ho.mapLines f) (kind_mapLine f hs)
  | block hl _ hr ih =>
      have whole := Spelled.block (kind_mapLine f hl) (forall_mapLinesOf f (Stmt.mapLines f) ih) (kind_mapLine f hr)
      simpa [Stmt.mapLines, Stmt.mapLinesAll_eq_map, flatten_mapLinesOf, mapLinesOf_snd] using whole
  | loop ht hl he hr _ ih =>
      have whole := Spelled.loop (kind_mapLine f ht) (kind_mapLine f hl) (he.mapLines f) (kind_mapLine f hr) ih
      simpa [Stmt.mapLines] using whole
  | forLoop ht hl hi hc hq hn hr _ ih =>
      have whole := Spelled.forLoop (kind_mapLine f ht) (kind_mapLine f hl) (hi.mapLines f) (hc.mapLines f)
        (kind_mapLine f hq) (hn.mapLines f) (kind_mapLine f hr) ih
      rw [mapLines_forLoop]
      simpa using whole
  | ite ht hl he hr _ ih =>
      have whole := Spelled.ite (kind_mapLine f ht) (kind_mapLine f hl) (he.mapLines f) (kind_mapLine f hr) ih
      simpa [Stmt.mapLines, Stmt.mapLines?] using whole
  | iteElse ht hl he hr _ hq _ ih ih' =>
      have whole := Spelled.iteElse (kind_mapLine f ht) (kind_mapLine f hl) (he.mapLines f) (kind_mapLine f hr) ih
        (kind_mapLine f hq) ih'
      simpa [Stmt.mapLines, Stmt.mapLines?] using whole
  | var ht hv => exact .var (kind_mapLine f ht) (hv.mapLines f)
  | function ht framed _ ih =>
      have whole := Spelled.function (kind_mapLine f ht) (framed.mapLines f) (forall_mapLinesOf f (Stmt.mapLines f) ih)
      simpa [Stmt.mapLines, CallableText.tokens_mapLines, CallableText.decl_mapLines] using whole
  | @classDecl _ _ _ _ _ _ _ methods ht hn ho hl framed _ hr ih =>
      have framed' : ∀ m ∈ methods.map (CallableText.mapLines f), m.Framed :=
        List.forall_mem_map.2 fun m hm => (framed m hm).mapLines f
      have bodies : ∀ m ∈ methods.map (CallableText.mapLines f), ∀ p ∈ m.body, Spelled .declaration p.1 p.2 :=
        List.forall_mem_map.2 fun m hm => forall_mapLinesOf f (Stmt.mapLines f) (ih m hm)
      have whole := Spelled.classDecl (kind_mapLine f ht) (name?_mapLine f hn) (ho.mapLines f) (kind_mapLine f hl)
        framed' bodies (kind_mapLine f hr)
      simpa [Stmt.mapLines, FunctionDecl.mapLinesAll_eq_map, Function.comp_def, CallableText.tokens_mapLines,
        CallableText.decl_mapLines, List.map_flatten] using whole
  | statement _ ih => exact .statement ih

end Stmt.Spelled

namespace Stmts.Spelled

theorem mapLines {ss : List (Stmt Unit)} (h : Stmts.Spelled w ss) :
    Stmts.Spelled (w.map (Token.mapLine f)) (ss.map (Stmt.mapLines f)) := by
  obtain ⟨parts, hparts, rfl, rfl⟩ := h
  have moved := forall_mapLinesOf f (Stmt.mapLines f) fun p hp => (hparts p hp).mapLines f
  exact ⟨_, moved, (flatten_mapLinesOf f _).symm, (mapLinesOf_snd f _).symm⟩

theorem append {u : List Token} {ss ss' : List (Stmt Unit)} (h : Stmts.Spelled u ss) (h' : Stmts.Spelled w ss') :
    Stmts.Spelled (u ++ w) (ss ++ ss') := by
  obtain ⟨parts, hparts, rfl, rfl⟩ := h
  obtain ⟨parts', hparts', rfl, rfl⟩ := h'
  have all : ∀ p ∈ parts ++ parts', Stmt.Spelled .declaration p.1 p.2 := by
    intro p hp
    rcases List.mem_append.1 hp with hp | hp
    · exact hparts p hp
    · exact hparts' p hp
  exact ⟨parts ++ parts', all, by simp, by simp⟩

end Stmts.Spelled

end LoxScript
