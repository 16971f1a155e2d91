import LoxScript.Proofs.Grammar.Sound

/-!
# What a tree takes from its text

The names, numbers and strings of a tree are tokens of the text that it was read from.
-/

namespace LoxScript

def Name.kind (x : Name) : Token.Kind :=
  .identifier x.text

/-- The token that a value is, unless it is a reserved word. -/
def Literal.atoms : Literal → List Token.Kind
  | .number x => [.number x]
  | .string s => [.string s]
  | .nil | .bool _ => []

variable {ρ : Type}

namespace Expr

mutual

def atoms : Expr ρ → List Token.Kind
  | .literal value => value.atoms
  | .grouping e | .unary _ _ e => e.atoms
  | .binary _ _ a b | .logical _ _ a b => a.atoms ++ b.atoms
  | .var x _ => [x.kind]
  | .assign x _ e => x.kind :: e.atoms
  | .call f _ es => f.atoms ++ atomsAll es
  | .get o x => x.kind :: o.atoms
  | .set o x e => x.kind :: (o.atoms ++ e.atoms)
  | .this _ _ => []
  | .super _ x _ => [x.kind]

def atomsAll : List (Expr ρ) → List Token.Kind
  | [] => []
  | e :: es => e.atoms ++ atomsAll es

end

theorem atomsAll_eq_flatMap (es : List (Expr ρ)) : atomsAll es = es.flatMap atoms := by
  induction es with
  | nil => rfl
  | cons e es ih => rw [atomsAll, ih, List.flatMap_cons]

def atoms? (e : Option (Expr ρ)) : List Token.Kind :=
  e.toList.flatMap atoms

theorem atoms?_some (e : Expr ρ) : atoms? (some e) = e.atoms :=
  List.append_nil _

end Expr

mutual

def Stmt.atoms : Stmt ρ → List Token.Kind
  | .expression e | .print e => e.atoms
  | .var x e => x.kind :: Expr.atoms? e
  | .block body => Stmt.atomsAll body
  | .function d => d.atoms
  | .classDecl x c ds => x.kind :: (c.toList.map (fun p => p.1.kind) ++ FunctionDecl.atomsAll ds)
  | .ite e t none => e.atoms ++ t.atoms
  | .ite e t (some s) => e.atoms ++ (t.atoms ++ s.atoms)
  | .ret _ e => Expr.atoms? e
  | .loop e body => e.atoms ++ body.atoms

def FunctionDecl.atoms : FunctionDecl ρ → List Token.Kind
  | .mk x params body => x.kind :: (params.map Name.kind ++ Stmt.atomsAll body)

def Stmt.atomsAll : List (Stmt ρ) → List Token.Kind
  | [] => []
  | s :: ss => s.atoms ++ Stmt.atomsAll ss

def FunctionDecl.atomsAll : List (FunctionDecl ρ) → List Token.Kind
  | [] => []
  | d :: ds => d.atoms ++ FunctionDecl.atomsAll ds

end

theorem Stmt.atomsAll_eq_flatMap (ss : List (Stmt ρ)) : Stmt.atomsAll ss = ss.flatMap Stmt.atoms := by
  induction ss with
  | nil => rfl
  | cons s ss ih => rw [Stmt.atomsAll, ih, List.flatMap_cons]

theorem FunctionDecl.atomsAll_eq_flatMap (ds : List (FunctionDecl ρ)) :
    FunctionDecl.atomsAll ds = ds.flatMap FunctionDecl.atoms := by
  induction ds with
  | nil => rfl
  | cons d ds ih => rw [FunctionDecl.atomsAll, ih, List.flatMap_cons]

/-! ## Atoms are tokens -/

section Tokens

variable {P : Token.Kind → Prop} {w : List Token}

/-- What holds of a name that is read holds of the name in the tree. -/
theorem Token.kind_name? {t : Token} {x : Name} (h : t.name? = some x) (ht : P t.kind) : P x.kind :=
  show P (.identifier x.text) from (Token.kind_of_name? h).1 ▸ ht

theorem Literal.forall_atoms {v : Literal} (h : P v.kind) : ∀ k ∈ v.atoms, P k := by
  cases v with
  | number | string => exact List.forall_mem_singleton.2 h
  | nil | bool => exact nofun

theorem Commas.forall_mem {ws : List (List Token)} (h : Commas ws w) (hw : ∀ t ∈ w, P t.kind) :
    ∀ u ∈ ws, ∀ t ∈ u, P t.kind := by
  induction h with
  | nil => exact nofun
  | one => exact List.forall_mem_singleton.2 hw
  | cons _ _ ih =>
      rw [List.forall_mem_append, List.forall_mem_cons] at hw
      exact List.forall_mem_cons.2 ⟨hw.1, ih hw.2.2⟩

/-- What holds of the tokens of each part holds of the atoms of all parts. -/
theorem forall_atoms_parts {α : Type} {atoms : α → List Token.Kind} {parts : List (List Token × α)}
    (h : ∀ p ∈ parts, (∀ t ∈ p.1, P t.kind) → ∀ k ∈ atoms p.2, P k) (hw : ∀ u ∈ parts.map Prod.fst, ∀ t ∈ u, P t.kind) :
    ∀ k ∈ (parts.map Prod.snd).flatMap atoms, P k := by
  rw [List.flatMap_map]
  exact List.forall_mem_flatMap.2 fun p hp => h p hp (hw p.1 (List.mem_map_of_mem hp))

theorem Expr.atoms_build (j : Join) (line : Int) (a b : Expr ρ) : (j.build line a b).atoms = a.atoms ++ b.atoms := by
  cases j <;> rfl

/-- What holds of all tokens of a text holds of the atoms of the expression that is read from it. -/
theorem Expr.Spelled.forall_atoms {r : Rank} {e : Expr Unit} (h : e.Spelled r w) (hw : ∀ t ∈ w, P t.kind) :
    ∀ k ∈ e.atoms, P k := by
  induction h with
  | literal ht => exact Literal.forall_atoms (ht ▸ hw _ List.mem_cons_self)
  | var hn => exact List.forall_mem_singleton.2 (Token.kind_name? hn (hw _ List.mem_cons_self))
  | this => exact nofun
  | super _ _ hn => exact List.forall_mem_singleton.2 (Token.kind_name? hn (hw _ (by simp)))
  | grouping _ _ _ ih =>
      simp only [List.forall_mem_cons, List.forall_mem_append] at hw
      exact ih hw.2.1
  | get _ _ hn ih =>
      simp only [List.forall_mem_cons, List.forall_mem_append] at hw
      exact List.forall_mem_cons.2 ⟨Token.kind_name? hn hw.2.2.1, ih hw.1⟩
  | call _ _ _ commas _ _ ih iharguments =>
      simp only [List.forall_mem_cons, List.forall_mem_append] at hw
      rw [Expr.atoms, atomsAll_eq_flatMap]
      exact List.forall_mem_append.2 ⟨ih hw.1, forall_atoms_parts iharguments (commas.forall_mem hw.2.2.1)⟩
  | unary _ _ ih => exact ih (List.forall_mem_cons.1 hw).2
  | join _ _ _ iha ihb =>
      simp only [List.forall_mem_cons, List.forall_mem_append] at hw
      rw [atoms_build]
      exact List.forall_mem_append.2 ⟨iha hw.1, ihb hw.2.2⟩
  | assign hn _ _ ih =>
      simp only [List.forall_mem_cons] at hw
      exact List.forall_mem_cons.2 ⟨Token.kind_name? hn hw.1, ih hw.2.2⟩
  | set _ _ hn _ _ iho ih =>
      simp only [List.forall_mem_cons, List.forall_mem_append] at hw
      exact List.forall_mem_cons.2 ⟨Token.kind_name? hn hw.2.2.1, List.forall_mem_append.2 ⟨iho hw.1, ih hw.2.2.2.2⟩⟩
  | tighter _ ih => exact ih hw

theorem Optionally.forall_atoms {e : Option (Expr Unit)} (h : Optionally (Expr.Spelled .assignment) w e)
    (hw : ∀ t ∈ w, P t.kind) : ∀ k ∈ Expr.atoms? e, P k := by
  cases h with
  | absent => exact nofun
  | present he => exact (Expr.atoms?_some _).symm ▸ he.forall_atoms hw

theorem VarSpelled.forall_atoms {s : Stmt Unit} (h : VarSpelled w s) (hw : ∀ t ∈ w, P t.kind) :
    ∀ k ∈ s.atoms, P k := by
  cases h with
  | plain hn => exact List.forall_mem_singleton.2 (Token.kind_name? hn (hw _ List.mem_cons_self))
  | initialized hn _ he _ =>
      simp only [List.forall_mem_cons, List.forall_mem_append] at hw
      refine List.forall_mem_cons.2 ⟨Token.kind_name? hn hw.1, ?_⟩
      exact (Expr.atoms?_some _).symm ▸ he.forall_atoms hw.2.2.1

theorem InitializerSpelled.forall_atoms {i : Option (Stmt Unit)} (h : InitializerSpelled w i)
    (hw : ∀ t ∈ w, P t.kind) : ∀ s ∈ i, ∀ k ∈ s.atoms, P k := by
  cases h with
  | absent => exact nofun
  | var _ hv =>
      rintro s ⟨⟩
      exact hv.forall_atoms (List.forall_mem_cons.1 hw).2
  | expression he _ =>
      rintro s ⟨⟩
      exact he.forall_atoms (List.forall_mem_append.1 hw).1

theorem SuperclassSpelled.forall_atoms {c : Option (Name × Unit)} (h : SuperclassSpelled w c)
    (hw : ∀ t ∈ w, P t.kind) : ∀ p ∈ c, P p.1.kind := by
  cases h with
  | absent => exact nofun
  | present _ hn =>
      rintro p ⟨⟩
      exact Token.kind_name? hn (hw _ (by simp))

namespace CallableText

theorem Header.forall_atoms {x : Name} {params : List Name} (h : Header w x params) (hw : ∀ t ∈ w, P t.kind) :
    P x.kind ∧ ∀ p ∈ params, P p.kind := by
  cases h with
  | mk hn _ hparams commas _ _ _ =>
      simp only [List.forall_mem_cons, List.forall_mem_append] at hw
      refine ⟨Token.kind_name? hn hw.1, List.forall_mem_map.2 fun p hp => ?_⟩
      obtain ⟨t, single, name⟩ := hparams p hp
      have own := commas.forall_mem hw.2.2.1 p.1 (List.mem_map_of_mem hp)
      rw [single] at own
      exact Token.kind_name? name (own t List.mem_cons_self)

theorem Framed.forall_atoms {m : CallableText} (h : m.Framed)
    (body : ∀ p ∈ m.body, (∀ t ∈ p.1, P t.kind) → ∀ k ∈ p.2.atoms, P k) (hw : ∀ t ∈ m.tokens, P t.kind) :
    ∀ k ∈ m.decl.atoms, P k := by
  simp only [tokens, List.forall_mem_append] at hw
  obtain ⟨name, params⟩ := h.header.forall_atoms hw.1
  rw [decl, FunctionDecl.atoms, Stmt.atomsAll_eq_flatMap]
  refine List.forall_mem_cons.2 ⟨name, List.forall_mem_append.2 ⟨List.forall_mem_map.2 params, ?_⟩⟩
  exact forall_atoms_parts body (List.forall_mem_flatten.1 hw.2.1)

end CallableText

theorem Stmt.forall_atoms_forLoop {i : Option (Stmt Unit)} {c n : Option (Expr Unit)} {s : Stmt Unit}
    (hi : ∀ s ∈ i, ∀ k ∈ s.atoms, P k) (hc : ∀ k ∈ Expr.atoms? c, P k) (hn : ∀ k ∈ Expr.atoms? n, P k)
    (hs : ∀ k ∈ s.atoms, P k) : ∀ k ∈ (Stmt.forLoop i c n s).atoms, P k := by
  have condition : ∀ k ∈ (c.getD (.literal (.bool true))).atoms, P k := by
    cases c with
    | none => exact nofun
    | some c => exact Expr.atoms?_some c ▸ hc
  have loop : ∀ k ∈ (Stmt.forLoop none c n s).atoms, P k := by
    refine List.forall_mem_append.2 ⟨condition, ?_⟩
    cases n with
    | none => exact hs
    | some n =>
        rw [Expr.atoms?_some] at hn
        simpa [Stmt.atoms, Stmt.atomsAll, or_imp, forall_and] using ⟨hs, hn⟩
  cases i with
  | none => exact loop
  | some i =>
      show ∀ k ∈ (Stmt.block [i, Stmt.forLoop none c n s]).atoms, P k
      simpa [Stmt.atoms, Stmt.atomsAll, or_imp, forall_and] using ⟨hi i rfl, loop⟩

theorem Stmt.Spelled.forall_atoms {form : Form} {s : Stmt Unit} (h : s.Spelled form w) (hw : ∀ t ∈ w, P t.kind) :
    ∀ k ∈ s.atoms, P k := by
  induction h with
  | expression he _ => exact he.forall_atoms (List.forall_mem_append.1 hw).1
  | print _ he _ =>
      simp only [List.forall_mem_cons, List.forall_mem_append] at hw
      exact he.forall_atoms hw.2.1
  | ret _ ho _ =>
      simp only [List.forall_mem_cons, List.forall_mem_append] at hw
      exact ho.forall_atoms hw.2.1
  | block _ _ _ ih =>
      simp only [List.forall_mem_cons, List.forall_mem_append, List.forall_mem_flatten] at hw
      rw [Stmt.atoms, Stmt.atomsAll_eq_flatMap]
      exact forall_atoms_parts ih hw.2.1
  | loop _ _ he _ _ ih =>
      simp only [List.forall_mem_cons, List.forall_mem_append] at hw
      exact List.forall_mem_append.2 ⟨he.forall_atoms hw.2.2.1, ih hw.2.2.2.2⟩
  | forLoop _ _ hi hc _ hn _ _ ih =>
      simp only [List.forall_mem_cons, List.forall_mem_append] at hw
      exact Stmt.forall_atoms_forLoop (hi.forall_atoms hw.2.2.1) (hc.forall_atoms hw.2.2.2.1)
        (hn.forall_atoms hw.2.2.2.2.2.1) (ih hw.2.2.2.2.2.2.2)
  | ite _ _ he _ _ ih =>
      simp only [List.forall_mem_cons, List.forall_mem_append] at hw
      exact List.forall_mem_append.2 ⟨he.forall_atoms hw.2.2.1, ih hw.2.2.2.2⟩
  | iteElse _ _ he _ _ _ _ ih ih' =>
      simp only [List.forall_mem_cons, List.forall_mem_append] at hw
      refine List.forall_mem_append.2 ⟨he.forall_atoms hw.2.2.1, ?_⟩
      exact List.forall_mem_append.2 ⟨ih hw.2.2.2.2.1, ih' hw.2.2.2.2.2.2⟩
  | var _ hv => exact hv.forall_atoms (List.forall_mem_cons.1 hw).2
  | function _ framed _ ih => exact framed.forall_atoms ih (List.forall_mem_cons.1 hw).2
  | classDecl _ hn ho _ framed _ _ ih =>
      simp only [List.forall_mem_cons, List.forall_mem_append, List.forall_mem_flatten, List.forall_mem_map] at hw
      rw [Stmt.atoms, FunctionDecl.atomsAll_eq_flatMap, List.flatMap_map]
      refine List.forall_mem_cons.2 ⟨Token.kind_name? hn hw.2.1, List.forall_mem_append.2 ⟨?_, ?_⟩⟩
      · exact List.forall_mem_map.2 fun p hp => ho.forall_atoms hw.2.2.1 p (Option.mem_toList.1 hp)
      · exact List.forall_mem_flatMap.2 fun m hm => (framed m hm).forall_atoms (ih m hm) (hw.2.2.2.2.1 m hm)
  | statement _ ih => exact ih hw

end Tokens

end LoxScript
