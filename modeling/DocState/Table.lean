/-!
# Tables in order of insertion

A `Table` maps keys to values and remembers the order in which the keys came.

* `get?`, `contains`, `keys`, `size`: the view of a table.
* `insert`: replaces the value of a key in place, or appends the key.
* `modify`: changes the value of a key that is there.
-/

namespace DocState

/-- Keys with their values, the oldest key first. -/
structure Table (κ α : Type) where
  entries : List (κ × α)
deriving DecidableEq, Repr

namespace Table

variable {κ α : Type} [DecidableEq κ]

/-- The table without keys. -/
def empty : Table κ α := ⟨[]⟩

instance : Inhabited (Table κ α) := ⟨empty⟩

/-- The value of a key, searched from the oldest key. -/
def get? (t : Table κ α) (k : κ) : Option α := find t.entries
where
  /-- The value of the first entry with the key. -/
  find : List (κ × α) → Option α
    | [] => none
    | (k', a) :: rest => if k' = k then some a else find rest

/-- Whether a key is there. -/
def contains (t : Table κ α) (k : κ) : Bool := (t.get? k).isSome

/-- The keys in order. -/
def keys (t : Table κ α) : List κ := t.entries.map (·.1)

/-- The number of keys. -/
def size (t : Table κ α) : Nat := t.entries.length

/-- Gives a key a value: in the key's place if it is there, else at the end. -/
def insert (t : Table κ α) (k : κ) (a : α) : Table κ α := ⟨put t.entries⟩
where
  /-- Replaces the value of the first entry with the key, or appends the entry. -/
  put : List (κ × α) → List (κ × α)
    | [] => [(k, a)]
    | (k', b) :: rest => if k' = k then (k', a) :: rest else (k', b) :: put rest

/-- Changes the value of a key, if it is there. -/
def modify (t : Table κ α) (k : κ) (f : α → α) : Table κ α := ⟨change t.entries⟩
where
  /-- Changes the value of the first entry with the key. -/
  change : List (κ × α) → List (κ × α)
    | [] => []
    | (k', a) :: rest => if k' = k then (k', f a) :: rest else (k', a) :: change rest

/-! ## What the operations do to the view -/

variable {t : Table κ α} {k j : κ} {a : α} {f : α → α}

@[simp] theorem get?_empty : (empty : Table κ α).get? k = none := rfl

theorem contains_eq_isSome : t.contains k = (t.get? k).isSome := rfl

theorem get?_insert : (t.insert k a).get? j = if k = j then some a else t.get? j := by
  obtain ⟨es⟩ := t
  simp only [get?, insert]
  induction es with
  | nil => by_cases h : k = j <;> simp [insert.put, get?.find, h]
  | cons e rest ih =>
    obtain ⟨k', b⟩ := e
    by_cases h : k' = k
    · subst h
      by_cases hj : k' = j <;> simp [insert.put, get?.find, hj]
    · by_cases hj : k' = j
      · subst hj
        simp [insert.put, get?.find, h, Ne.symm h]
      · simp [insert.put, get?.find, h, hj, ih]

theorem get?_modify : (t.modify k f).get? j = if k = j then (t.get? j).map f else t.get? j := by
  obtain ⟨es⟩ := t
  simp only [get?, modify]
  induction es with
  | nil => simp [modify.change, get?.find]
  | cons e rest ih =>
    obtain ⟨k', b⟩ := e
    by_cases h : k' = k
    · subst h
      by_cases hj : k' = j <;> simp [modify.change, get?.find, hj]
    · by_cases hj : k' = j
      · subst hj
        simp [modify.change, get?.find, h, Ne.symm h]
      · simp [modify.change, get?.find, h, hj, ih]

@[simp] theorem keys_modify : (t.modify k f).keys = t.keys := by
  obtain ⟨es⟩ := t
  simp only [keys, modify]
  induction es with
  | nil => rfl
  | cons e rest ih => by_cases h : e.1 = k <;> simp_all [modify.change]

@[simp] theorem size_modify : (t.modify k f).size = t.size := by
  have h := congrArg List.length (keys_modify (t := t) (k := k) (f := f))
  simpa [keys, size] using h

theorem keys_insert : (t.insert k a).keys = if t.contains k then t.keys else t.keys ++ [k] := by
  obtain ⟨es⟩ := t
  simp only [keys, insert, contains, get?]
  induction es with
  | nil => simp [insert.put, get?.find]
  | cons e rest ih =>
    by_cases h : e.1 = k
    · simp [insert.put, get?.find, h]
    · simp only [insert.put, get?.find, h, if_false, List.map_cons, ih]
      by_cases hk : (get?.find k rest).isSome = true <;> simp [hk]

end Table

end DocState
