import LoxScript.Proofs.Colour.Clean

/-!
# Reports about a clean text

All that scanning, parsing and resolving say about a text is composed of fixed words, of line numbers and of lexemes
of the text. So there are no escape characters in it if there are none in the text.
-/

namespace LoxScript

/-! ## Tokens -/

theorem Token.IsLexeme.clean_kind {kind : Token.Kind} {text : List Char} (h : Token.IsLexeme kind text)
    (clean : escapeChar ∉ text) : kind.Clean := by
  cases h with
  | symbol | keyword | whole | fractional => trivial
  | identifier => exact Clean.ofList_iff.2 clean
  | string => exact Clean.ofList_iff.2 fun mem => clean (by simp [mem])

theorem Piece.clean_text {cs : List Char} (clean : escapeChar ∉ cs) {p : Piece} (hp : p ∈ pieces cs) :
    escapeChar ∉ p.text := by
  intro mem
  rw [← pieces_text cs] at clean
  exact clean (List.mem_flatMap_of_mem hp mem)

namespace Scan

variable {source : String}

theorem clean_lexeme (clean : Clean source) {t : Token} (ht : t ∈ (ofString source).list.tokens) :
    Clean t.lexeme := by
  obtain ⟨⟨p, line⟩, located, found⟩ := List.mem_filterMap.1 ht
  have piece := Piece.clean_text clean (Piece.fst_mem_of_mem_locate located)
  cases p with
  | lexeme kind text =>
      cases found
      exact Clean.ofList_iff.2 piece
  | _ => cases found

theorem clean_kind (clean : Clean source) {t : Token} (ht : t ∈ (ofString source).list.tokens) : t.kind.Clean :=
  (isLexeme_of_mem ht).clean_kind (clean_lexeme clean ht)

/-- The statements that are read from a clean text are clean. -/
theorem clean_program (clean : Clean source) (quiet : (Stmt.parse (ofString source).list).errors = []) :
    ∀ s ∈ (Stmt.parse (ofString source).list).value, s.Clean := by
  intro s hs
  obtain ⟨parts, spelled, tokens, values⟩ := Stmt.spelled_of_parse quiet
  rw [values] at hs
  obtain ⟨p, hp, rfl⟩ := List.mem_map.1 hs
  refine (spelled p hp).forall_atoms fun t ht => clean_kind clean ?_
  rw [tokens]
  exact List.mem_flatten_of_mem (List.mem_map_of_mem hp) ht

end Scan

/-! ## What is found before a program runs -/

namespace Report

def Clean (r : Report) : Prop :=
  LoxScript.Clean r.text

theorem clean_ofLocated {ε : Type} {message : ε → String} {e : Located ε} (cause : LoxScript.Clean (message e.cause))
    (place : LoxScript.Clean e.place.text) : (ofLocated message e).Clean := by
  have line : LoxScript.Clean ("[line " ++ toString e.line ++ "] Error") :=
    .append (.append (by decide) (.int e.line)) (by decide)
  exact .append (.append (.append line place) (by decide)) cause

end Report

theorem Place.clean_atLexeme {lexeme : String} (h : Clean lexeme) : Clean (atLexeme lexeme).text :=
  .append (.append (by decide) h) (by decide)

theorem Scan.clean_lexicalReports {source : String} (clean : Clean source) :
    ∀ e ∈ (ofString source).errors, (Report.ofLocated LexicalError.message e).Clean := by
  intro e he
  obtain ⟨⟨p, line⟩, located, found⟩ := List.mem_filterMap.1 he
  have piece := Piece.clean_text clean (Piece.fst_mem_of_mem_locate located)
  obtain ⟨cause, fault, rfl⟩ := Option.map_eq_some_iff.1 found
  refine Report.clean_ofLocated ?_ (by decide : Clean Place.line.text)
  cases p with
  | unexpected c =>
      cases fault
      have character : Clean c.toString := by simpa [Clean, Piece.text] using piece
      exact .append (by decide) character
  | openString =>
      cases fault
      exact (by decide : Clean LexicalError.openString.message)
  | openComment =>
      cases fault
      exact (by decide : Clean LexicalError.openComment.message)
  | _ => cases fault

theorem SyntaxError.clean_message (e : SyntaxError) : Clean e.message := by
  have clause (c : Clause) : Clean c.text := by
    cases c with
    | callableName kind | callableBody kind => cases kind <;> decide
    | _ => decide
  cases e with
  | noName role =>
      have name : Clean role.text := by
        cases role with
        | callable kind => cases kind <;> decide
        | _ => decide
      exact .append (.append (by decide) name) (by decide)
  | noSymbolBefore s c | noSymbolAfter s c =>
      exact .append (.append (.append (.append (by decide) s.clean_text) (by decide)) (clause c)) (by decide)
  | _ => decide

theorem Scan.clean_syntaxReports {source : String} (clean : Clean source) :
    ∀ e ∈ (Stmt.parse (ofString source).list).errors, (Report.ofLocated SyntaxError.message e).Clean := by
  intro e he
  refine Report.clean_ofLocated e.cause.clean_message ?_
  rcases (Stmt.parse_yields (ofString_plain source)).2 e he with atEnd | ⟨t, ht, atLexeme⟩
  · rw [atEnd]
    decide
  · rw [atLexeme]
    exact Place.clean_atLexeme (clean_lexeme clean ht)

/-! ## What is found in the scopes -/

def Site.names : Site → List Name
  | .ret _ _ | .this _ | .super _ => []
  | .variable name => [name]
  | .classDecl name superclass => name :: superclass.toList
  | .scope names => names

def Site.Clean (site : Site) : Prop :=
  ∀ n ∈ site.names, n.kind.Clean

theorem Name.mem_of_mem_repeated {names : List Name} {n : Name} (h : n ∈ repeated names) : n ∈ names := by
  obtain ⟨⟨m, i⟩, mem, rfl⟩ := List.mem_map.1 h
  exact (List.mem_zipIdx' (List.mem_of_mem_filter mem)).2 ▸ List.getElem_mem _

/-- What the rules forbid at a site is found at one of its names or at a reserved word. -/
theorem Site.clean_violations {site : Site} (h : site.Clean) (around : List Surrounding) :
    ∀ e ∈ site.violations around, LoxScript.Clean e.place.text := by
  have atKeyword (k : Keyword) : LoxScript.Clean (Place.atLexeme k.text).text := Place.clean_atLexeme k.clean_text
  have atName (n : Name) (hn : n ∈ site.names) : LoxScript.Clean (Place.atLexeme n.text).text :=
    Place.clean_atLexeme (h n hn)
  intro e he
  cases site with
  | ret line hasValue =>
      rw [violations, List.mem_append, List.mem_ite_nil_left, List.mem_ite_nil_right, List.mem_singleton,
        List.mem_singleton] at he
      rcases he with ⟨_, rfl⟩ | ⟨_, rfl⟩ <;> exact atKeyword .returnWord
  | this line =>
      rw [violations] at he
      split at he
      · exact List.mem_singleton.1 he ▸ atKeyword .thisWord
      · cases he
  | super line =>
      rw [violations] at he
      split at he
      · exact List.mem_singleton.1 he ▸ atKeyword .superWord
      · exact List.mem_singleton.1 he ▸ atKeyword .superWord
      · rw [List.mem_ite_nil_right, List.mem_singleton] at he
        exact he.2 ▸ atKeyword .superWord
  | «variable» name =>
      rw [violations, List.mem_ite_nil_right, List.mem_singleton] at he
      exact he.2 ▸ atName name List.mem_cons_self
  | classDecl name superclass =>
      cases superclass with
      | none => cases he
      | some superclass =>
          rw [violations, List.mem_ite_nil_right, List.mem_singleton] at he
          exact he.2 ▸ atName superclass (List.mem_cons_of_mem _ List.mem_cons_self)
  | scope names =>
      obtain ⟨n, hn, rfl⟩ := List.mem_map.1 he
      exact atName n (Name.mem_of_mem_repeated hn)

mutual

theorem Expr.clean_sites (e : Expr Unit) (h : e.Clean) : ∀ site ∈ e.sites, site.Clean := by
  match e with
  | .literal _ => exact nofun
  | .grouping e => exact e.clean_sites h
  | .unary _ _ e => exact e.clean_sites h
  | .binary _ _ a b | .logical _ _ a b =>
      have h := List.forall_mem_append.1 h
      exact List.forall_mem_append.2 ⟨a.clean_sites h.1, b.clean_sites h.2⟩
  | .var n _ => exact List.forall_mem_singleton.2 (List.forall_mem_singleton.2 (h _ List.mem_cons_self))
  | .assign _ _ e => exact e.clean_sites (List.forall_mem_cons.1 h).2
  | .call f _ es =>
      have h := List.forall_mem_append.1 h
      exact List.forall_mem_append.2 ⟨f.clean_sites h.1, Expr.clean_sitesAll es h.2⟩
  | .get e _ => exact e.clean_sites (List.forall_mem_cons.1 h).2
  | .set e _ v =>
      have h := List.forall_mem_append.1 (List.forall_mem_cons.1 h).2
      exact List.forall_mem_append.2 ⟨e.clean_sites h.1, v.clean_sites h.2⟩
  | .this _ _ | .super _ _ _ => exact List.forall_mem_singleton.2 nofun

theorem Expr.clean_sitesAll (es : List (Expr Unit)) (h : ∀ k ∈ Expr.atomsAll es, k.Clean) :
    ∀ site ∈ Expr.sitesAll es, site.Clean := by
  match es with
  | [] => exact nofun
  | e :: es =>
      have h := List.forall_mem_append.1 h
      exact List.forall_mem_append.2 ⟨e.clean_sites h.1, Expr.clean_sitesAll es h.2⟩

end

theorem Stmt.mem_atoms_of_declared? {s : Stmt Unit} {n : Name} (h : s.declared? = some n) : n.kind ∈ s.atoms := by
  cases s with
  | var | classDecl =>
      cases h
      exact List.mem_cons_self
  | function d =>
      cases d
      cases h
      exact List.mem_cons_self
  | _ => cases h

theorem Stmt.clean_declaredAll {ss : List (Stmt Unit)} (h : ∀ k ∈ Stmt.atomsAll ss, k.Clean) :
    ∀ n ∈ Stmt.declaredAll ss, n.kind.Clean := by
  intro n hn
  obtain ⟨s, hs, declared⟩ := List.mem_filterMap.1 hn
  exact Stmt.forall_clean h s hs _ (Stmt.mem_atoms_of_declared? declared)

def Occurrence.AllClean (os : List Occurrence) : Prop :=
  ∀ o ∈ os, o.site.Clean

theorem Expr.clean_occurrences {e : Expr Unit} (h : e.Clean) (around : List Surrounding) :
    Occurrence.AllClean (e.occurrences around) :=
  List.forall_mem_map.2 (e.clean_sites h)

theorem Expr.clean_occurrences? {e : Option (Expr Unit)} (h : ∀ k ∈ atoms? e, k.Clean) (around : List Surrounding) :
    Occurrence.AllClean (occurrences? around e) := by
  cases e with
  | none => exact nofun
  | some e => exact clean_occurrences (forall_clean? h e rfl) around

mutual

theorem Stmt.clean_occurrences (s : Stmt Unit) (h : s.Clean) (around : List Surrounding) :
    Occurrence.AllClean (s.occurrences around) := by
  match s with
  | .expression e | .print e => exact Expr.clean_occurrences h around
  | .var n e => exact Expr.clean_occurrences? (List.forall_mem_cons.1 h).2 _
  | .block body =>
      exact List.forall_mem_cons.2 ⟨Stmt.clean_declaredAll h, Stmt.clean_occurrencesAll body h _⟩
  | .function d => exact d.clean_occurrences h _ around
  | .classDecl n c ds =>
      have h := List.forall_mem_cons.1 h
      have behind := List.forall_mem_append.1 h.2
      have methods := FunctionDecl.clean_occurrencesMethods ds behind.2
      cases c with
      | none => exact List.forall_mem_cons.2 ⟨List.forall_mem_singleton.2 h.1, methods _⟩
      | some c =>
          have superclass : c.1.kind.Clean := behind.1 _ List.mem_cons_self
          have both : (Site.classDecl n (some c.1)).Clean :=
            List.forall_mem_cons.2 ⟨h.1, List.forall_mem_singleton.2 superclass⟩
          have named : (Site.variable c.1).Clean := List.forall_mem_singleton.2 superclass
          exact List.forall_mem_cons.2 ⟨both, List.forall_mem_cons.2 ⟨named, methods _⟩⟩
  | .ite e t none =>
      have h := List.forall_mem_append.1 h
      have parts := List.forall_mem_append.2 ⟨Expr.clean_occurrences h.1 around, t.clean_occurrences h.2 around⟩
      exact List.forall_mem_append.2 ⟨parts, nofun⟩
  | .ite e t (some u) =>
      have h := List.forall_mem_append.1 h
      have branches := List.forall_mem_append.1 h.2
      have parts := List.forall_mem_append.2
        ⟨Expr.clean_occurrences h.1 around, t.clean_occurrences branches.1 around⟩
      exact List.forall_mem_append.2 ⟨parts, u.clean_occurrences branches.2 around⟩
  | .ret _ e => exact List.forall_mem_cons.2 ⟨nofun, Expr.clean_occurrences? h around⟩
  | .loop e body =>
      have h := List.forall_mem_append.1 h
      exact List.forall_mem_append.2 ⟨Expr.clean_occurrences h.1 around, body.clean_occurrences h.2 around⟩

theorem FunctionDecl.clean_occurrences (d : FunctionDecl Unit) (h : d.Clean) (kind : Surrounding)
    (around : List Surrounding) : Occurrence.AllClean (d.occurrences kind around) := by
  match d with
  | .mk n params body =>
      have inner := List.forall_mem_append.1 (List.forall_mem_cons.1 h).2
      have parameters : ∀ p ∈ params, p.kind.Clean := List.forall_mem_map.1 inner.1
      have names := List.forall_mem_append.2 ⟨parameters, Stmt.clean_declaredAll inner.2⟩
      exact List.forall_mem_cons.2 ⟨names, Stmt.clean_occurrencesAll body inner.2 _⟩

theorem Stmt.clean_occurrencesAll (ss : List (Stmt Unit)) (h : ∀ k ∈ Stmt.atomsAll ss, k.Clean)
    (around : List Surrounding) : Occurrence.AllClean (Stmt.occurrencesAll around ss) := by
  match ss with
  | [] => exact nofun
  | s :: ss =>
      have h := List.forall_mem_append.1 h
      exact List.forall_mem_append.2 ⟨s.clean_occurrences h.1 around, Stmt.clean_occurrencesAll ss h.2 around⟩

theorem FunctionDecl.clean_occurrencesMethods (ds : List (FunctionDecl Unit))
    (h : ∀ k ∈ FunctionDecl.atomsAll ds, k.Clean) (around : List Surrounding) :
    Occurrence.AllClean (FunctionDecl.occurrencesMethods around ds) := by
  match ds with
  | [] => exact nofun
  | d :: ds =>
      have h := List.forall_mem_append.1 h
      exact List.forall_mem_append.2
        ⟨d.clean_occurrences h.1 _ around, FunctionDecl.clean_occurrencesMethods ds h.2 around⟩

end

theorem ScopeError.clean_message (e : ScopeError) : Clean e.message := by
  cases e <;> decide

/-- What resolving a clean program reports is clean. -/
theorem Stmt.clean_scopeReports {program : List (Stmt Unit)} (proper : ∀ s ∈ program, s.Proper)
    (clean : ∀ s ∈ program, s.Clean) :
    ∀ e ∈ (Stmt.resolveProgram program).errors, (Report.ofLocated ScopeError.message e).Clean := by
  intro e he
  have found := Stmt.resolveAll_finds program proper (s := Resolver.start) Context.top_executes
  rw [redeclared, List.any_nil, if_neg Bool.false_ne_true, List.append_nil] at found
  obtain ⟨o, ho, forbidden⟩ := List.mem_flatMap.1 (found.mem_iff.1 he)
  have atoms : ∀ k ∈ Stmt.atomsAll program, k.Clean := by
    rw [Stmt.atomsAll_eq_flatMap]
    exact List.forall_mem_flatMap.2 clean
  exact Report.clean_ofLocated e.cause.clean_message
    (Site.clean_violations (Stmt.clean_occurrencesAll program atoms [] o ho) o.around e forbidden)

/-! ## Resolved programs -/

section Forget

variable {ρ : Type}

mutual

theorem Expr.atoms_forget (e : Expr ρ) : e.forget.atoms = e.atoms := by
  match e with
  | .literal _ | .var _ _ | .this _ _ | .super _ _ _ => rfl
  | .grouping e | .unary _ _ e => exact e.atoms_forget
  | .assign n _ e | .get e n => exact congrArg (n.kind :: ·) e.atoms_forget
  | .binary _ _ a b | .logical _ _ a b => exact congrArg₂ (· ++ ·) a.atoms_forget b.atoms_forget
  | .call f _ es => exact congrArg₂ (· ++ ·) f.atoms_forget (Expr.atomsAll_forgetAll es)
  | .set e n v => exact congrArg (n.kind :: ·) (congrArg₂ (· ++ ·) e.atoms_forget v.atoms_forget)

theorem Expr.atomsAll_forgetAll (es : List (Expr ρ)) : Expr.atomsAll (Expr.forgetAll es) = Expr.atomsAll es := by
  match es with
  | [] => rfl
  | e :: es => exact congrArg₂ (· ++ ·) e.atoms_forget (Expr.atomsAll_forgetAll es)

end

theorem Expr.atoms?_forget (e : Option (Expr ρ)) : atoms? (e.map forget) = atoms? e := by
  cases e with
  | none => rfl
  | some e => rw [Option.map_some, atoms?_some, atoms?_some, e.atoms_forget]

mutual

theorem Stmt.atoms_forget (s : Stmt ρ) : s.forget.atoms = s.atoms := by
  match s with
  | .expression e | .print e => exact e.atoms_forget
  | .var n e => exact congrArg (n.kind :: ·) (Expr.atoms?_forget e)
  | .block body => exact Stmt.atomsAll_forgetAll body
  | .function d => exact d.atoms_forget
  | .classDecl n none ds => exact congrArg (n.kind :: ·) (FunctionDecl.atomsAll_forgetAll ds)
  | .classDecl n (some c) ds =>
      exact congrArg (n.kind :: ·) (congrArg (c.1.kind :: ·) (FunctionDecl.atomsAll_forgetAll ds))
  | .ite e t none => exact congrArg₂ (· ++ ·) e.atoms_forget t.atoms_forget
  | .ite e t (some u) =>
      exact congrArg₂ (· ++ ·) e.atoms_forget (congrArg₂ (· ++ ·) t.atoms_forget u.atoms_forget)
  | .ret _ e => exact Expr.atoms?_forget e
  | .loop e body => exact congrArg₂ (· ++ ·) e.atoms_forget body.atoms_forget

theorem FunctionDecl.atoms_forget (d : FunctionDecl ρ) : d.forget.atoms = d.atoms := by
  match d with
  | .mk n params body =>
      exact congrArg (fun atoms => n.kind :: (params.map Name.kind ++ atoms)) (Stmt.atomsAll_forgetAll body)

theorem Stmt.atomsAll_forgetAll (ss : List (Stmt ρ)) : Stmt.atomsAll (Stmt.forgetAll ss) = Stmt.atomsAll ss := by
  match ss with
  | [] => rfl
  | s :: ss => exact congrArg₂ (· ++ ·) s.atoms_forget (Stmt.atomsAll_forgetAll ss)

theorem FunctionDecl.atomsAll_forgetAll (ds : List (FunctionDecl ρ)) :
    FunctionDecl.atomsAll (FunctionDecl.forgetAll ds) = FunctionDecl.atomsAll ds := by
  match ds with
  | [] => rfl
  | d :: ds => exact congrArg₂ (· ++ ·) d.atoms_forget (FunctionDecl.atomsAll_forgetAll ds)

end

end Forget

theorem Stmt.clean_resolveProgram {program : List (Stmt Unit)} (clean : ∀ s ∈ program, s.Clean) :
    ∀ s ∈ (Stmt.resolveProgram program).value, s.Clean := by
  refine Stmt.forall_clean ?_
  rw [← Stmt.atomsAll_forgetAll, Stmt.forgetAll_resolveProgram, Stmt.atomsAll_eq_flatMap]
  exact List.forall_mem_flatMap.2 clean

end LoxScript
