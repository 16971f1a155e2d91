import LoxScript.Proofs.Tree.Lossless
import LoxScript.Proofs.Tree.Stack

/-!
# What the text in reverse Polish notation says

The words of a text in reverse Polish notation can be told apart, and each tells its operation, but for one: the word of
unary minus may also be the name of a variable. A text tells how often it is the one and how often the other, because a
tree leaves one result; where both occur it does not tell which is which.
-/

namespace LoxScript

namespace StackOp

/-- The operation as its words tell it, with unary minus taken for a variable. -/
def blurred : StackOp → StackOp
  | unary .negate => var UnaryOp.negate.polishText
  | p => p

def Legible (numbers : List Float) : StackOp → Prop
  | literal v => ∀ k ∈ v.atoms, k.Legible numbers
  | var x | super x | assign x | get x | set x => (Token.Kind.identifier x).Legible numbers
  | this | unary _ | binary _ | logical _ | call _ => True

/-! ## Reading operations -/

section Reading

variable (numbers : List Float)

def operator? : String → Option StackOp
  | "!" => some (unary .not)
  | "==" => some (binary .equal)
  | "!=" => some (binary .notEqual)
  | ">" => some (binary .greater)
  | ">=" => some (binary .greaterEqual)
  | "<" => some (binary .less)
  | "<=" => some (binary .lessEqual)
  | "-" => some (binary .minus)
  | "+" => some (binary .plus)
  | "/" => some (binary .slash)
  | "*" => some (binary .star)
  | "and" => some (logical .and)
  | "or" => some (logical .or)
  | _ => none

def ofLeaf (w : String) : StackOp :=
  match Nested.leaf? numbers w with
  | some (.literal v) => literal v
  | some (.this _ _) => this
  | _ => var w

def ofWord (w : String) : StackOp :=
  match w.toList with
  | '.' :: x => get (.ofList x)
  | 'c' :: 'a' :: 'l' :: 'l' :: '/' :: n => call (Nat.ofDigitChars 10 n 0)
  | _ => (operator? w).getD (ofLeaf numbers w)

def assignment (w : String) : StackOp :=
  match w.toList with
  | '.' :: x => set (.ofList x)
  | _ => assign w

def ofWords : List String → List StackOp
  | [] => []
  | [w] => [ofWord numbers w]
  | w :: v :: ws =>
      if w = "super" then super (.ofList v.toList.tail) :: ofWords ws
      else if v = "=" then assignment w :: ofWords ws
      else ofWord numbers w :: ofWords (v :: ws)

end Reading

variable {numbers : List Float} {w : String} {c : Char} {rest : List Char}

/-! ## What words begin with -/

/-- Numbers and strings are no reserved words. -/
theorem ne_keyword_of_head (text : w.toList = c :: rest) (head : isDigit c = true ∨ c = '"') (k : Keyword) :
    w ≠ k.text := by
  intro same
  have letter : isLetter c = true := by
    apply Keyword.isLetter_of_mem (k := k)
    rw [← same, text]
    exact List.mem_cons_self
  cases head with
  | inl digit =>
      rw [Token.IsLexeme.not_isDigit_of_isLetter letter] at digit
      cases digit
  | inr quote =>
      subst quote
      exact absurd letter (by decide)

/-- Names are no reserved words. -/
theorem ne_keyword_of_legible (h : (Token.Kind.identifier w).Legible numbers) (k : Keyword) : w ≠ k.text := by
  have lexeme : Token.IsLexeme (.identifier w) w.toList := h
  obtain ⟨-, -, -, -, -, noKeyword⟩ := lexeme.identifier_cons
  rintro rfl
  rw [Keyword.ofText?_text] at noKeyword
  cases noKeyword

/-- A literal is a reserved word, or it begins with a digit or a quote. -/
theorem literal_cases (told : Number.Told numbers) {v : Literal} (h : ∀ k ∈ v.atoms, k.Legible numbers) :
    v ∈ [.nil, .bool true, .bool false] ∨ ∃ c rest, v.text.toList = c :: rest ∧ (isDigit c = true ∨ c = '"') := by
  cases v with
  | nil => exact .inl List.mem_cons_self
  | bool b => cases b <;> exact .inl (by simp)
  | string s => exact .inr ⟨'"', s.toList ++ ['"'], by simp [Literal.text], .inr rfl⟩
  | number x =>
      obtain ⟨c, first, digit⟩ := told.digit x (h _ List.mem_cons_self)
      obtain ⟨rest, text⟩ := List.head?_eq_some_iff.1 first
      exact .inr ⟨c, rest, text, .inl digit⟩

/-- Operators begin neither with a letter or a digit nor with a quote, or they are reserved words. -/
theorem operator?_eq_none (text : w.toList = c :: rest) (head : isLetter c = true ∨ isDigit c = true ∨ c = '"')
    (noKeyword : ∀ k : Keyword, w ≠ k.text) : operator? w = none := by
  unfold operator?
  split
  all_goals first
    | rfl
    | exact absurd rfl (noKeyword .andWord)
    | exact absurd rfl (noKeyword .orWord)
    | (obtain ⟨rfl, -⟩ := List.cons.inj text
       exact absurd head (by decide))

/-! ## Each word tells its operation -/

/-- A word that is no operator, property or call. -/
theorem ofWord_leaf (text : w.toList = c :: rest) (head : isLetter c = true ∨ isDigit c = true ∨ c = '"')
    (noCall : c = 'c' → '/' ∉ rest) (noKeyword : ∀ k : Keyword, w ≠ k.text) : ofWord numbers w = ofLeaf numbers w := by
  unfold ofWord
  split
  · next x point =>
      rw [text] at point
      obtain ⟨rfl, -⟩ := List.cons.inj point
      exact absurd head (by decide)
  · next n slash =>
      rw [text] at slash
      obtain ⟨rfl, rfl⟩ := List.cons.inj slash
      exact absurd (by simp) (noCall rfl)
  · rw [operator?_eq_none text head noKeyword]
    rfl

theorem ofWord_identifier (told : Number.Told numbers) (h : (Token.Kind.identifier w).Legible numbers) :
    ofWord numbers w = var w := by
  have lexeme : Token.IsLexeme (.identifier w) w.toList := h
  obtain ⟨c, rest, text, letter, parts, -⟩ := lexeme.identifier_cons
  have no_slash : '/' ∉ rest := by
    intro slash
    have part := parts '/' slash
    exact absurd part (by decide)
  rw [ofWord_leaf text (.inl letter) (fun _ => no_slash) (ne_keyword_of_legible h), ofLeaf,
    Nested.leaf?_identifier told lexeme]

theorem ofWord_literal (told : Number.Told numbers) {v : Literal} (h : ∀ k ∈ v.atoms, k.Legible numbers) :
    ofWord numbers v.text = literal v := by
  cases literal_cases told h with
  | inl reserved =>
      have among : v = .nil ∨ v = .bool true ∨ v = .bool false := by simpa using reserved
      obtain rfl | rfl | rfl := among <;> rfl
  | inr plain =>
      obtain ⟨c, rest, text, head⟩ := plain
      have noCall : c = 'c' → '/' ∉ rest := by
        rintro rfl
        exact absurd head (by decide)
      rw [ofWord_leaf text (.inr head) noCall (ne_keyword_of_head text head), ofLeaf, Nested.leaf?_literal told h]

theorem ofWord_get (x : String) : ofWord numbers ("." ++ x) = get x := by
  have text : ("." ++ x).toList = '.' :: x.toList := by simp
  unfold ofWord
  rw [text]
  exact congrArg get String.ofList_toList

theorem ofWord_call (n : Nat) : ofWord numbers ("call/" ++ toString n) = call n := by
  have text : ("call/" ++ toString n).toList = 'c' :: 'a' :: 'l' :: 'l' :: '/' :: Nat.toDigits 10 n := by simp
  unfold ofWord
  rw [text]
  show call (Nat.ofDigitChars 10 (Nat.toDigits 10 n) 0) = call n
  rw [Nat.ofDigitChars_ten_toDigits]

/-- The word of unary minus could be a name. -/
theorem legible_polishText : (Token.Kind.identifier UnaryOp.negate.polishText).Legible numbers := by
  have letters : ['e', 'g'].all isLetter = true := by decide
  have parts : ∀ d ∈ ['e', 'g'], isLetter d = true ∨ isDigit d = true :=
    fun d hd => .inl (List.all_eq_true.1 letters d hd)
  have noKeyword (k : Keyword) : k.text.toList ≠ 'n' :: ['e', 'g'] := by cases k <;> decide
  exact Token.IsLexeme.identifier (by decide) parts noKeyword

theorem ofWord_blurred (told : Number.Told numbers) {p : StackOp} (h : p.Legible numbers) (word : p.words = [w]) :
    ofWord numbers w = p.blurred := by
  cases p with
  | literal v =>
      cases word
      exact ofWord_literal told h
  | var x =>
      cases word
      exact ofWord_identifier told h
  | get x =>
      cases word
      exact ofWord_get x
  | call n =>
      cases word
      exact ofWord_call n
  | this =>
      cases word
      rfl
  | unary op =>
      cases word
      cases op with
      | not => rfl
      | negate => exact ofWord_identifier told legible_polishText
  | binary op =>
      cases word
      cases op <;> rfl
  | logical op =>
      cases word
      cases op <;> rfl
  | super | assign | set => cases word

/-! ## Words tell their operations -/

theorem ofWords_single (numbers : List Float) (w : String) (ws : List String) (noSuper : w ≠ "super")
    (noTarget : ∀ v ∈ ws.head?, v ≠ "=") : ofWords numbers (w :: ws) = ofWord numbers w :: ofWords numbers ws := by
  cases ws with
  | nil => rfl
  | cons v ws => rw [ofWords, if_neg noSuper, if_neg (noTarget v rfl)]

theorem ofWords_super (numbers : List Float) (m : String) (ws : List String) :
    ofWords numbers ("super" :: ("." ++ m) :: ws) = super m :: ofWords numbers ws := by
  have text : ("." ++ m).toList.tail = m.toList := by simp
  rw [ofWords, if_pos rfl, text, String.ofList_toList]

theorem ofWords_target (numbers : List Float) (w : String) (ws : List String) (noSuper : w ≠ "super") :
    ofWords numbers (w :: "=" :: ws) = assignment w :: ofWords numbers ws := by
  rw [ofWords, if_neg noSuper, if_pos rfl]

theorem assignment_identifier (h : (Token.Kind.identifier w).Legible numbers) : assignment w = assign w := by
  have lexeme : Token.IsLexeme (.identifier w) w.toList := h
  obtain ⟨c, rest, text, letter, -, -⟩ := lexeme.identifier_cons
  unfold assignment
  split
  · next x point =>
      rw [text] at point
      obtain ⟨rfl, -⟩ := List.cons.inj point
      exact absurd letter (by decide)
  · rfl

theorem assignment_get (x : String) : assignment ("." ++ x) = set x := by
  have text : ("." ++ x).toList = '.' :: x.toList := by simp
  unfold assignment
  rw [text]
  exact congrArg set String.ofList_toList

/-- The words with which operations begin are told from the sign of an assignment and from the word of superclasses. -/
theorem head_words (told : Number.Told numbers) {p : StackOp} (h : p.Legible numbers) :
    ∀ w ∈ p.words.head?, w ≠ "=" ∧ ((∀ m, p ≠ super m) → w ≠ "super") := by
  have named {x : String} (hx : (Token.Kind.identifier x).Legible numbers) : x ≠ "=" ∧ x ≠ "super" := by
    refine ⟨?_, ne_keyword_of_legible hx .superWord⟩
    rintro rfl
    have lexeme : Token.IsLexeme (.identifier "=") "=".toList := hx
    obtain ⟨c, rest, text, letter, -, -⟩ := lexeme.identifier_cons
    obtain ⟨rfl, -⟩ := List.cons.inj text
    exact absurd letter (by decide)
  have pointed (x : String) : "." ++ x ≠ "=" ∧ "." ++ x ≠ "super" := by
    have text : ("." ++ x).toList = '.' :: x.toList := by simp
    constructor
    all_goals
      intro same
      rw [same] at text
      exact absurd (List.cons.inj text).1 (by decide)
  intro w first
  cases p with
  | literal v =>
      cases first
      cases literal_cases told h with
      | inl reserved =>
          have among : v = .nil ∨ v = .bool true ∨ v = .bool false := by simpa using reserved
          obtain rfl | rfl | rfl := among <;> exact ⟨by decide, fun _ => by decide⟩
      | inr plain =>
          obtain ⟨c, rest, text, head⟩ := plain
          refine ⟨?_, fun _ => ne_keyword_of_head text head .superWord⟩
          intro same
          rw [same] at text
          obtain ⟨rfl, -⟩ := List.cons.inj text
          exact absurd head (by decide)
  | var x | assign x =>
      cases first
      exact ⟨(named h).1, fun _ => (named h).2⟩
  | get x | set x =>
      cases first
      exact ⟨(pointed x).1, fun _ => (pointed x).2⟩
  | call n =>
      cases first
      have text : ("call/" ++ toString n).toList = 'c' :: ("all/" ++ toString n).toList := by simp
      constructor
      · intro same
        rw [same] at text
        exact absurd (List.cons.inj text).1 (by decide)
      · intro _ same
        rw [same] at text
        exact absurd (List.cons.inj text).1 (by decide)
  | this =>
      cases first
      exact ⟨by decide, fun _ => by decide⟩
  | unary op | binary op | logical op =>
      cases first
      exact ⟨by cases op <;> decide, fun _ => by cases op <;> decide⟩
  | super m =>
      cases first
      exact ⟨by decide, fun other => absurd rfl (other m)⟩

/-- The words of legible operations tell the operations. -/
theorem ofWords_flatMap (told : Number.Told numbers) {ps : List StackOp} (h : ∀ p ∈ ps, p.Legible numbers) :
    ofWords numbers (ps.flatMap words) = ps.map blurred := by
  induction ps with
  | nil => rfl
  | cons p ps ih =>
      obtain ⟨hp, hps⟩ := List.forall_mem_cons.1 h
      have noTarget : ∀ v ∈ (ps.flatMap words).head?, v ≠ "=" := by
        cases ps with
        | nil => exact nofun
        | cons q qs =>
            intro v first
            rw [List.flatMap_cons, List.head?_append_of_ne_nil _ q.words_ne_nil] at first
            exact (head_words told (hps q List.mem_cons_self) v first).1
      have alone {w : String} (word : p.words = [w]) (noSuper : ∀ m, p ≠ super m) :
          ofWords numbers ((p :: ps).flatMap words) = (p :: ps).map blurred := by
        have first : w ∈ p.words.head? := by
          rw [word]
          exact rfl
        rw [List.flatMap_cons, word, List.singleton_append,
          ofWords_single numbers w _ ((head_words told hp w first).2 noSuper) noTarget, ofWord_blurred told hp word,
          ih hps, List.map_cons]
      cases p with
      | literal | var | this | unary | binary | logical | call | get => exact alone rfl nofun
      | super m =>
          rw [List.map_cons, ← ih hps]
          exact ofWords_super numbers m _
      | assign x =>
          rw [List.map_cons, ← ih hps]
          have noSuper := (head_words told hp x rfl).2 nofun
          have name : (Token.Kind.identifier x).Legible numbers := hp
          show ofWords numbers (x :: "=" :: ps.flatMap words) = _
          rw [ofWords_target numbers x _ noSuper, assignment_identifier name]
          rfl
      | set x =>
          rw [List.map_cons, ← ih hps]
          have noSuper := (head_words told hp ("." ++ x) rfl).2 nofun
          show ofWords numbers (("." ++ x) :: "=" :: ps.flatMap words) = _
          rw [ofWords_target numbers _ _ noSuper, assignment_get]
          rfl

/-! ## Texts tell their words -/

theorem isWord_words (told : Number.Told numbers) {p : StackOp} (h : p.Legible numbers) :
    ∀ w ∈ p.words, Nested.IsWord w.toList := by
  have named {x : String} (hx : (Token.Kind.identifier x).Legible numbers) : Nested.IsWord x.toList :=
    Nested.isWord_identifier hx
  have pointed {x : String} (hx : (Token.Kind.identifier x).Legible numbers) : Nested.IsWord ("." ++ x).toList := by
    have lexeme : Token.IsLexeme (.identifier x) x.toList := hx
    obtain ⟨c, rest, text, letter, parts, -⟩ := lexeme.identifier_cons
    have whole : ("." ++ x).toList = '.' :: c :: rest := by simp [text]
    rw [whole]
    refine .bare (List.cons_ne_nil _ _) (List.forall_mem_cons.2 ⟨by decide, List.forall_mem_cons.2 ⟨?_, ?_⟩⟩)
    · exact Nested.not_mem_marks (.inl letter)
    · exact fun d hd => Nested.not_mem_marks (parts d hd)
  have equal : Nested.IsWord "=".toList := Nested.isWord_of_isBare (by decide)
  cases p with
  | literal v => exact List.forall_mem_singleton.2 (Nested.isWord_literal told h)
  | var x => exact List.forall_mem_singleton.2 (named h)
  | this => exact List.forall_mem_singleton.2 (Nested.isWord_of_isBare (by decide))
  | super m =>
      have word : Nested.IsWord "super".toList := Nested.isWord_of_isBare (by decide)
      exact List.forall_mem_cons.2 ⟨word, List.forall_mem_singleton.2 (pointed h)⟩
  | unary op | binary op | logical op =>
      exact List.forall_mem_singleton.2 (Nested.isWord_of_isBare (by cases op <;> decide))
  | assign x => exact List.forall_mem_cons.2 ⟨named h, List.forall_mem_singleton.2 equal⟩
  | get x => exact List.forall_mem_singleton.2 (pointed h)
  | set x => exact List.forall_mem_cons.2 ⟨pointed h, List.forall_mem_singleton.2 equal⟩
  | call n =>
      have text : ("call/" ++ toString n).toList = ['c', 'a', 'l', 'l', '/'] ++ Nat.toDigits 10 n := by simp
      have plain : ['c', 'a', 'l', 'l', '/'].all (fun d => !Nested.marks.contains d) = true := by decide
      refine List.forall_mem_singleton.2 (text ▸ .bare (List.cons_ne_nil _ _) (List.forall_mem_append.2 ⟨?_, ?_⟩))
      · intro d hd mark
        simpa [mark] using List.all_eq_true.1 plain d hd
      · intro d hd
        have digit : d.isDigit = true := Nat.isDigit_of_mem_toDigits (by decide) (by decide) hd
        exact Nested.not_mem_marks (.inr digit)

/-- Words between blanks can be told apart. -/
theorem words_eq_of_text {ws vs : List String} (hws : ∀ w ∈ ws, Nested.IsWord w.toList)
    (hvs : ∀ v ∈ vs, Nested.IsWord v.toList) (same : " ".intercalate ws = " ".intercalate vs) : ws = vs := by
  have readable {us : List String} (hus : ∀ u ∈ us, Nested.IsWord u.toList) :
      (Nested.list (us.map .word)).Readable :=
    .list (List.forall_mem_map.2 fun u hu => .word (hus u hu))
  have text (us : List String) : (Nested.list (us.map .word)).text = '(' :: ((" ".intercalate us).toList ++ [')']) := by
    rw [Nested.text_list, String.toList_intercalate]
    simp [Function.comp_def, Nested.text]
  have lists := (readable hws).text_inj (readable hvs) (by rw [text, text, same])
  exact List.map_injective_iff.2 (fun _ _ => Nested.word.inj) (Nested.list.inj lists)

end StackOp

namespace Expr

variable {ρ : Type} {numbers : List Float}

open StackOp (words blurred)

/-- Operations in front of one that is legible. -/
theorem forall_legible_behind {ps : List StackOp} {p : StackOp} (hps : ∀ q ∈ ps, q.Legible numbers)
    (hp : p.Legible numbers) : ∀ q ∈ ps ++ [p], q.Legible numbers :=
  List.forall_mem_append.2 ⟨hps, List.forall_mem_singleton.2 hp⟩

mutual

/-- The operations of a legible tree are legible. -/
theorem legible_stackOps {e : Expr ρ} (h : ∀ k ∈ e.atoms, k.Legible numbers) : ∀ p ∈ e.stackOps, p.Legible numbers := by
  cases e with
  | literal v => exact List.forall_mem_singleton.2 h
  | grouping e => exact legible_stackOps (e := e) h
  | unary _ _ e => exact forall_legible_behind (legible_stackOps (e := e) h) trivial
  | binary _ _ a b | logical _ _ a b =>
      obtain ⟨ha, hb⟩ := List.forall_mem_append.1 h
      exact List.forall_mem_append.2 ⟨legible_stackOps ha, forall_legible_behind (legible_stackOps hb) trivial⟩
  | var x _ => exact List.forall_mem_singleton.2 (h _ List.mem_cons_self)
  | assign x _ e =>
      obtain ⟨hx, he⟩ := List.forall_mem_cons.1 h
      exact forall_legible_behind (legible_stackOps he) hx
  | call f _ es =>
      obtain ⟨hf, hes⟩ := List.forall_mem_append.1 h
      exact List.forall_mem_append.2 ⟨legible_stackOpsAll hes, forall_legible_behind (legible_stackOps hf) trivial⟩
  | get o x =>
      obtain ⟨hx, ho⟩ := List.forall_mem_cons.1 h
      exact forall_legible_behind (legible_stackOps ho) hx
  | set o x e =>
      obtain ⟨hx, hoe⟩ := List.forall_mem_cons.1 h
      obtain ⟨ho, he⟩ := List.forall_mem_append.1 hoe
      exact List.forall_mem_append.2 ⟨legible_stackOps he, forall_legible_behind (legible_stackOps ho) hx⟩
  | this => exact List.forall_mem_singleton.2 trivial
  | super _ m _ => exact List.forall_mem_singleton.2 (h _ List.mem_cons_self)

theorem legible_stackOpsAll {es : List (Expr ρ)} (h : ∀ k ∈ atomsAll es, k.Legible numbers) :
    ∀ p ∈ stackOpsAll es, p.Legible numbers := by
  cases es with
  | nil => exact nofun
  | cons e es =>
      obtain ⟨he, hes⟩ := List.forall_mem_append.1 h
      exact List.forall_mem_append.2 ⟨legible_stackOps he, legible_stackOpsAll hes⟩

end

/-- Trees with one text have the same operations, except that some may take for unary minus what others take for a
variable. -/
theorem blurred_eq_of_toPolish {e e' : Expr ρ} (told : Number.Told numbers) (h : ∀ k ∈ e.atoms, k.Legible numbers)
    (h' : ∀ k ∈ e'.atoms, k.Legible numbers) (same : e.toPolish = e'.toPolish) :
    e.stackOps.map blurred = e'.stackOps.map blurred := by
  have legible := legible_stackOps h
  have legible' := legible_stackOps h'
  have isWord {ps : List StackOp} (hps : ∀ p ∈ ps, p.Legible numbers) :
      ∀ w ∈ ps.flatMap words, Nested.IsWord w.toList :=
    List.forall_mem_flatMap.2 fun p hp => StackOp.isWord_words told (hps p hp)
  rw [toPolish_eq, toPolish_eq] at same
  rw [← StackOp.ofWords_flatMap told legible, ← StackOp.ofWords_flatMap told legible',
    StackOp.words_eq_of_text (isWord legible) (isWord legible') same]

end Expr

/-! ## Unary minus and the variable that is called so -/

namespace StackOp

/-- The variable with the name that unary minus is written with. -/
def namesake : StackOp :=
  var UnaryOp.negate.polishText

/-- Operations among which nothing stands for a variable, if the name is that of unary minus. -/
def sharpened (p : StackOp) : StackOp :=
  if p = namesake then unary .negate else p

theorem blurred_of_ne {p : StackOp} (h : p ≠ unary .negate) : p.blurred = p := by
  cases p with
  | unary op =>
      cases op with
      | not => rfl
      | negate => exact absurd rfl h
  | literal | var | this | super | binary | logical | assign | call | get | set => rfl

/-- Taken for a variable, unary minus no longer replaces one result by another but adds one. -/
theorem growth_blurred (ps : List StackOp) :
    ((ps.map blurred).map growth).sum = (ps.map growth).sum + ps.count (unary .negate) := by
  induction ps with
  | nil => rfl
  | cons p ps ih =>
      simp only [List.map_cons, List.sum_cons, ih]
      by_cases minus : p = unary .negate
      · subst minus
        rw [List.count_cons_self]
        show 1 + _ = 0 + _ + _
        omega
      · rw [blurred_of_ne minus, List.count_cons_of_ne minus]
        omega

theorem count_blurred (ps : List StackOp) :
    (ps.map blurred).count namesake = ps.count namesake + ps.count (unary .negate) := by
  induction ps with
  | nil => rfl
  | cons p ps ih =>
      by_cases minus : p = unary .negate
      · subst minus
        have apart : unary .negate ≠ namesake := nofun
        show (namesake :: ps.map blurred).count namesake = _
        rw [List.count_cons_self, List.count_cons_self, List.count_cons_of_ne apart, ih]
        omega
      · rw [List.map_cons, blurred_of_ne minus, List.count_cons, List.count_cons, List.count_cons_of_ne minus, ih]
        omega

theorem map_blurred_of_not_mem {ps : List StackOp} (h : unary .negate ∉ ps) : ps.map blurred = ps := by
  have fixed : ∀ p ∈ ps, p.blurred = p := by
    intro p hp
    apply blurred_of_ne
    rintro rfl
    exact h hp
  rw [List.map_congr_left fixed, List.map_id']

theorem map_sharpened_of_not_mem {ps : List StackOp} (h : namesake ∉ ps) : (ps.map blurred).map sharpened = ps := by
  have fixed : ∀ p ∈ ps, (sharpened ∘ blurred) p = p := by
    intro p hp
    by_cases minus : p = unary .negate
    · subst minus
      exact (if_pos rfl : namesake.sharpened = unary .negate)
    · rw [Function.comp_apply, blurred_of_ne minus, sharpened, if_neg]
      rintro rfl
      exact h hp
  rw [List.map_map, List.map_congr_left fixed, List.map_id']

end StackOp

namespace Expr

variable {ρ : Type}

open StackOp (blurred namesake)

/-- Whether a tree has both a unary minus and a variable with the name that unary minus is written with. -/
def Equivocal (e : Expr ρ) : Prop :=
  .unary .negate ∈ e.stackOps ∧ namesake ∈ e.stackOps

/-- Trees that leave one result each agree in how many of the words they take for unary minus. -/
theorem count_minus_of_blurred {e e' : Expr ρ} (same : e.stackOps.map blurred = e'.stackOps.map blurred) :
    e.stackOps.count (.unary .negate) = e'.stackOps.count (.unary .negate) := by
  have grown := StackOp.growth_blurred e.stackOps
  have grown' := StackOp.growth_blurred e'.stackOps
  rw [growth_stackOps] at grown grown'
  rw [same] at grown
  omega

theorem count_namesake_of_blurred {e e' : Expr ρ} (same : e.stackOps.map blurred = e'.stackOps.map blurred) :
    e.stackOps.count namesake = e'.stackOps.count namesake := by
  have minus := count_minus_of_blurred same
  have counted := StackOp.count_blurred e.stackOps
  have counted' := StackOp.count_blurred e'.stackOps
  rw [same] at counted
  omega

/-- If one of the trees has no unary minus or no variable of that name, neither has the other, and the words tell the
operations. -/
theorem stackOps_eq_of_blurred {e e' : Expr ρ} (clear : ¬ (e.Equivocal ∧ e'.Equivocal))
    (same : e.stackOps.map blurred = e'.stackOps.map blurred) : e.stackOps = e'.stackOps := by
  have minus : .unary .negate ∈ e.stackOps ↔ .unary .negate ∈ e'.stackOps := by
    rw [← List.count_pos_iff, ← List.count_pos_iff, count_minus_of_blurred same]
  have named : namesake ∈ e.stackOps ↔ namesake ∈ e'.stackOps := by
    rw [← List.count_pos_iff, ← List.count_pos_iff, count_namesake_of_blurred same]
  by_cases negated : .unary .negate ∈ e.stackOps
  · have unnamed : namesake ∉ e.stackOps := by
      intro h
      exact clear ⟨⟨negated, h⟩, minus.1 negated, named.1 h⟩
    rw [← StackOp.map_sharpened_of_not_mem unnamed, same,
      StackOp.map_sharpened_of_not_mem fun h => unnamed (named.2 h)]
  · rw [← StackOp.map_blurred_of_not_mem negated, same,
      StackOp.map_blurred_of_not_mem fun h => negated (minus.2 h)]

/-- Trees with legible words and one text in reverse Polish notation differ in groupings and lines alone, unless both
have a unary minus and a variable of that name. -/
theorem bare_eq_of_toPolish {e e' : Expr Unit} (told : Number.Told (e.numbers ++ e'.numbers))
    (lexemes : ∀ k ∈ e.atoms, ∃ text, Token.IsLexeme k text) (lexemes' : ∀ k ∈ e'.atoms, ∃ text, Token.IsLexeme k text)
    (clear : ¬ (e.Equivocal ∧ e'.Equivocal)) (same : e.toPolish = e'.toPolish) : e.bare = e'.bare := by
  have legible := Token.Kind.legible_atoms lexemes fun x hx => List.mem_append_left e'.numbers hx
  have legible' := Token.Kind.legible_atoms lexemes' fun x hx => List.mem_append_right e.numbers hx
  exact bare_eq_of_stackOps (stackOps_eq_of_blurred clear (blurred_eq_of_toPolish told legible legible' same))

end Expr

namespace Scan

/-- Any two expressions that are read without errors and written alike in reverse Polish notation are equal after their
groupings are removed, up to the lines of their tokens, provided that different numbers among their literals are written
differently, each beginning with a digit, and that at least one of the expressions does not use both unary minus and a
variable whose name is the word of unary minus. -/
theorem toPolish_lossless (source source' : String) (e e' : Expr Unit)
    (read : Expr.parse? (ofString source).list = ⟨some e, []⟩)
    (read' : Expr.parse? (ofString source').list = ⟨some e', []⟩)
    (told : Number.Told (e.numbers ++ e'.numbers)) (clear : ¬ (e.Equivocal ∧ e'.Equivocal))
    (same : e.toPolish = e'.toPolish) :
    (e.ungrouped.mapLines fun _ => 0) = e'.ungrouped.mapLines fun _ => 0 :=
  Expr.bare_eq_of_toPolish told (lexeme_of_mem_expr read) (lexeme_of_mem_expr read') clear same

/-- A grouping, on different lines. -/
theorem toPolish_lossless_grouping :
    let e (line : Int) : Expr Unit := .binary .minus line (.unary .negate line (.var ⟨"a", line⟩ ())) (.this line ())
    let e' (line : Int) : Expr Unit :=
      .binary .minus line (.grouping (.unary .negate line (.var ⟨"a", line⟩ ()))) (.this line ())
    Expr.parse? (ofString "-a - this").list = ⟨some (e 1), []⟩ ∧
      Expr.parse? (ofString "\n(-a) - this").list = ⟨some (e' 2), []⟩ ∧
      Number.Told ((e 1).numbers ++ (e' 2).numbers) ∧ ¬ ((e 1).Equivocal ∧ (e' 2).Equivocal) ∧
      (e 1).toPolish = (e' 2).toPolish ∧
      ((e 1).ungrouped.mapLines fun _ => 0) = (e' 2).ungrouped.mapLines fun _ => 0 := by
  intro e e'
  let plain : TokenList :=
    ⟨[⟨.symbol .minus, "-", 1⟩, ⟨.identifier "a", "a", 1⟩, ⟨.symbol .minus, "-", 1⟩, ⟨.keyword .thisWord, "this", 1⟩], 1⟩
  let grouped : TokenList :=
    ⟨[⟨.symbol .leftParen, "(", 2⟩, ⟨.symbol .minus, "-", 2⟩, ⟨.identifier "a", "a", 2⟩, ⟨.symbol .rightParen, ")", 2⟩,
      ⟨.symbol .minus, "-", 2⟩, ⟨.keyword .thisWord, "this", 2⟩], 2⟩
  have scanned : (ofString "-a - this").list = plain ∧ (ofString "\n(-a) - this").list = grouped := by decide +kernel
  have parsed : Expr.parse? plain = ⟨some (e 1), []⟩ := rfl
  have parsed' : Expr.parse? grouped = ⟨some (e' 2), []⟩ := rfl
  have read : Expr.parse? (ofString "-a - this").list = ⟨some (e 1), []⟩ := scanned.1 ▸ parsed
  have read' : Expr.parse? (ofString "\n(-a) - this").list = ⟨some (e' 2), []⟩ := scanned.2 ▸ parsed'
  have told : Number.Told ((e 1).numbers ++ (e' 2).numbers) :=
    ⟨fun _ hx => absurd hx List.not_mem_nil, fun _ hx => absurd hx List.not_mem_nil⟩
  have clear : ¬ ((e 1).Equivocal ∧ (e' 2).Equivocal) := fun h => absurd h.1.2 (by decide)
  exact ⟨read, read', told, clear, rfl, toPolish_lossless _ _ _ _ read read' told clear rfl⟩

/-- A sum whose second part is negated and one whose first part is, written alike with a variable of the name that is
the word of unary minus. -/
theorem toPolish_namesake :
    let first : Expr Unit := .binary .plus 1 (.var ⟨"a", 1⟩ ()) (.unary .negate 1 (.var ⟨"neg", 1⟩ ()))
    let second : Expr Unit := .binary .plus 1 (.unary .negate 1 (.var ⟨"a", 1⟩ ())) (.var ⟨"neg", 1⟩ ())
    Expr.parse? (ofString "a + -neg").list = ⟨some first, []⟩ ∧
      Expr.parse? (ofString "-a + neg").list = ⟨some second, []⟩ ∧
      first.toPolish = "a neg neg +" ∧ second.toPolish = "a neg neg +" ∧
      Number.Told (first.numbers ++ second.numbers) ∧
      (first.ungrouped.mapLines fun _ => 0) ≠ second.ungrouped.mapLines fun _ => 0 := by
  intro first second
  let tokens : TokenList :=
    ⟨[⟨.identifier "a", "a", 1⟩, ⟨.symbol .plus, "+", 1⟩, ⟨.symbol .minus, "-", 1⟩, ⟨.identifier "neg", "neg", 1⟩], 1⟩
  let tokens' : TokenList :=
    ⟨[⟨.symbol .minus, "-", 1⟩, ⟨.identifier "a", "a", 1⟩, ⟨.symbol .plus, "+", 1⟩, ⟨.identifier "neg", "neg", 1⟩], 1⟩
  have scanned : (ofString "a + -neg").list = tokens ∧ (ofString "-a + neg").list = tokens' := by decide +kernel
  have parsed : Expr.parse? tokens = ⟨some first, []⟩ := rfl
  have parsed' : Expr.parse? tokens' = ⟨some second, []⟩ := rfl
  have told : Number.Told (first.numbers ++ second.numbers) :=
    ⟨fun _ hx => absurd hx List.not_mem_nil, fun _ hx => absurd hx List.not_mem_nil⟩
  refine ⟨scanned.1 ▸ parsed, scanned.2 ▸ parsed', rfl, rfl, told, ?_⟩
  intro same
  cases same

end Scan

end LoxScript
