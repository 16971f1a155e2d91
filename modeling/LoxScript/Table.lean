/-!
# Tables of names

A table gives values to finitely many names. Names keep the order in which they were first inserted;
inserting a name again replaces its value in place.
-/

namespace LoxScript

structure Table (α : Type) where
  entries : List (String × α)
  deriving Repr

namespace Table

variable {α : Type}

def empty : Table α := ⟨[]⟩

instance : Inhabited (Table α) := ⟨empty⟩

def singleton (name : String) (a : α) : Table α := ⟨[(name, a)]⟩

def findEntry (name : String) : List (String × α) → Option α
  | [] => none
  | (other, a) :: rest => if name = other then some a else findEntry name rest

def find? (t : Table α) (name : String) : Option α :=
  findEntry name t.entries

def contains (t : Table α) (name : String) : Bool :=
  (t.find? name).isSome

def insertEntry (name : String) (a : α) : List (String × α) → List (String × α)
  | [] => [(name, a)]
  | (other, b) :: rest => if name = other then (name, a) :: rest else (other, b) :: insertEntry name a rest

def insert (t : Table α) (name : String) (a : α) : Table α :=
  ⟨insertEntry name a t.entries⟩

def ofList (entries : List (String × α)) : Table α :=
  entries.foldl (fun t (name, a) => t.insert name a) empty

@[simp] theorem find?_empty (name : String) : (empty : Table α).find? name = none := rfl

theorem find?_insert (t : Table α) (name other : String) (a : α) :
    (t.insert name a).find? other = if other = name then some a else t.find? other := by
  obtain ⟨entries⟩ := t
  simp only [insert, find?]
  induction entries with
  | nil => simp [insertEntry, findEntry]
  | cons entry rest ih =>
      obtain ⟨key, b⟩ := entry
      simp only [insertEntry]
      split
      · next h =>
          subst h
          simp only [findEntry]
          split <;> simp_all
      · next h =>
          simp only [findEntry, ih]
          by_cases h' : other = key
          · subst h'
            simp [Ne.symm h]
          · simp [h']

@[simp] theorem find?_insert_self (t : Table α) (name : String) (a : α) :
    (t.insert name a).find? name = some a := by
  simp [find?_insert]

theorem find?_insert_of_ne (t : Table α) {name other : String} (a : α) (h : other ≠ name) :
    (t.insert name a).find? other = t.find? other := by
  simp [find?_insert, h]

theorem contains_insert (t : Table α) (name other : String) (a : α) :
    (t.insert name a).contains other = (decide (other = name) || t.contains other) := by
  by_cases h : other = name <;> simp [contains, find?_insert, h]

/-- Only the last value given to a name counts. -/
@[simp] theorem insert_insert_self (t : Table α) (name : String) (a b : α) :
    (t.insert name a).insert name b = t.insert name b := by
  obtain ⟨entries⟩ := t
  simp only [insert, mk.injEq]
  induction entries with
  | nil => simp [insertEntry]
  | cons entry rest ih =>
      obtain ⟨key, c⟩ := entry
      by_cases h : name = key
      · simp [insertEntry, h]
      · simp [insertEntry, h, ih]

@[simp] theorem find?_singleton (name other : String) (a : α) :
    (singleton name a).find? other = if other = name then some a else none := rfl

/-- The table of a list of entries, on top of a table that is there already. -/
theorem find?_foldl_insert {entries : List (String × α)} {t : Table α} {name : String} {a : α}
    (h : (entries.foldl (fun t (name, a) => t.insert name a) t).find? name = some a) :
    t.find? name = some a ∨ (name, a) ∈ entries := by
  induction entries generalizing t with
  | nil => exact .inl h
  | cons entry rest ih =>
      obtain ⟨key, b⟩ := entry
      rcases ih h with ht | hr
      · rw [find?_insert] at ht
        split at ht
        · next hk =>
            cases ht
            subst hk
            exact .inr List.mem_cons_self
        · exact .inl ht
      · exact .inr (List.mem_cons_of_mem _ hr)

theorem mem_of_find?_ofList {entries : List (String × α)} {name : String} {a : α}
    (h : (ofList entries).find? name = some a) : (name, a) ∈ entries := by
  rcases find?_foldl_insert h with h | h
  · simp at h
  · exact h

theorem isSome_find?_foldl_insert {entries : List (String × α)} {t : Table α} {name : String} :
    ((entries.foldl (fun t (name, a) => t.insert name a) t).find? name).isSome ↔
      (t.find? name).isSome ∨ name ∈ entries.map Prod.fst := by
  induction entries generalizing t with
  | nil => simp
  | cons entry rest ih =>
      obtain ⟨key, b⟩ := entry
      simp only [List.foldl_cons, List.map_cons, List.mem_cons]
      rw [ih, find?_insert]
      by_cases h : name = key <;> simp [h]

/-- A table made from a list has the names of the list. -/
theorem isSome_find?_ofList {entries : List (String × α)} {name : String} :
    ((ofList entries).find? name).isSome ↔ name ∈ entries.map Prod.fst := by
  unfold ofList
  rw [isSome_find?_foldl_insert]
  simp

/-- Entries ordered by name, code point by code point. -/
def sorted (t : Table α) : List (String × α) :=
  t.entries.mergeSort fun a b => decide (a.1 ≤ b.1)

end Table

end LoxScript
