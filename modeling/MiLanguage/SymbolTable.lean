set_option autoImplicit false

namespace MiLanguage

/-- What a name stands for, each name at most once and in the order of the names. So two tables
that answer every lookup alike are equal. -/
structure SymbolTable (α : Type) where
  entries : List (String × α) := []
  sorted : entries.Pairwise (fun a b => a.1 < b.1) := by exact List.Pairwise.nil

namespace SymbolTable

variable {α : Type}

def empty : SymbolTable α := {}

instance : Inhabited (SymbolTable α) := ⟨empty⟩

def find? (t : SymbolTable α) (name : String) : Option α := t.entries.lookup name

def contains (t : SymbolTable α) (name : String) : Bool := (t.find? name).isSome

def names (t : SymbolTable α) : List String := t.entries.map Prod.fst
def values (t : SymbolTable α) : List α := t.entries.map Prod.snd

def insertEntry (name : String) (value : α) : List (String × α) → List (String × α)
  | [] => [(name, value)]
  | (n, v) :: rest =>
      if name < n then (name, value) :: (n, v) :: rest
      else if name = n then (name, value) :: rest
      else (n, v) :: insertEntry name value rest

theorem mem_insertEntry {name : String} {value : α} {entries : List (String × α)}
    {e : String × α} (h : e ∈ insertEntry name value entries) :
    e = (name, value) ∨ e ∈ entries := by
  induction entries with
  | nil => simpa [insertEntry] using h
  | cons head rest ih =>
      obtain ⟨n, v⟩ := head
      unfold insertEntry at h
      split at h
      · simpa using h
      · split at h
        · rcases List.mem_cons.mp h with h | h
          · exact .inl h
          · exact .inr (List.mem_cons_of_mem _ h)
        · rcases List.mem_cons.mp h with h | h
          · exact .inr (by simp [h])
          · rcases ih h with h | h
            · exact .inl h
            · exact .inr (List.mem_cons_of_mem _ h)

theorem sorted_insertEntry (name : String) (value : α) (entries : List (String × α))
    (h : entries.Pairwise (fun a b => a.1 < b.1)) :
    (insertEntry name value entries).Pairwise (fun a b => a.1 < b.1) := by
  induction entries with
  | nil => simp [insertEntry]
  | cons head rest ih =>
      obtain ⟨n, v⟩ := head
      rw [List.pairwise_cons] at h
      unfold insertEntry
      split
      next lt =>
        refine List.pairwise_cons.mpr ⟨?_, List.pairwise_cons.mpr h⟩
        intro e he
        rcases List.mem_cons.mp he with he | he
        · rw [he]; exact lt
        · exact String.lt_trans lt (h.1 e he)
      next nlt =>
        split
        next eq =>
          subst eq
          exact List.pairwise_cons.mpr ⟨h.1, h.2⟩
        next ne =>
          refine List.pairwise_cons.mpr ⟨?_, ih h.2⟩
          intro e he
          rcases mem_insertEntry he with he | he
          · rw [he]
            exact Std.lt_of_le_of_ne (String.not_lt.mp nlt) (fun eq => ne eq.symm)
          · exact h.1 e he

def insert (t : SymbolTable α) (name : String) (value : α) : SymbolTable α :=
  ⟨insertEntry name value t.entries, sorted_insertEntry name value t.entries t.sorted⟩

-- Changes what `name` stands for, if it stands for anything.
def modify (t : SymbolTable α) (name : String) (f : α → α) : SymbolTable α :=
  match t.find? name with
  | some value => t.insert name (f value)
  | none => t

@[simp] theorem find?_empty (name : String) : (empty : SymbolTable α).find? name = none := rfl

theorem lookup_cons (name other : String) (value : α) (entries : List (String × α)) :
    ((name, value) :: entries).lookup other =
      if other = name then some value else entries.lookup other := by
  rw [List.lookup_cons]
  by_cases e : other = name
  · simp [e]
  · rw [beq_eq_false_iff_ne.mpr e, if_neg e]

theorem lookup_insertEntry (name other : String) (value : α) (entries : List (String × α)) :
    (insertEntry name value entries).lookup other =
      if other = name then some value else entries.lookup other := by
  induction entries with
  | nil => simp [insertEntry, lookup_cons]
  | cons head rest ih =>
      obtain ⟨n, v⟩ := head
      unfold insertEntry
      split
      · rw [lookup_cons]
      · split
        next eq => subst eq; simp only [lookup_cons]; split <;> rfl
        next ne =>
          simp only [lookup_cons, ih]
          by_cases e : other = name
          · simp [e, ne]
          · simp [e]

@[simp] theorem find?_insert (t : SymbolTable α) (name other : String) (value : α) :
    (t.insert name value).find? other = if other = name then some value else t.find? other :=
  lookup_insertEntry name other value t.entries

theorem find?_modify (t : SymbolTable α) (name other : String) (f : α → α) :
    (t.modify name f).find? other =
      if other = name then (t.find? name).map f else t.find? other := by
  unfold modify
  split
  next v h => simp [h]
  next h => by_cases e : other = name <;> simp [e, h]

end SymbolTable

end MiLanguage
