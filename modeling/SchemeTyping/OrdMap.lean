/-!
# Maps that remember the order of insertion

A finite map as the row of its entries.  A new key goes to the end, and a key that is already there
keeps its place when its value is replaced.  `get?_insert` is the law of the map, `keys_insert` that
of the order.
-/

set_option autoImplicit false

namespace SchemeTyping

/-- A finite map in order of insertion. -/
structure OrdMap (κ α : Type) where
  entries : List (κ × α)
  deriving DecidableEq, Repr

namespace OrdMap

variable {κ α β : Type}

instance : Inhabited (OrdMap κ α) := ⟨⟨[]⟩⟩

instance : EmptyCollection (OrdMap κ α) := ⟨⟨[]⟩⟩

/-- The keys in order of insertion. -/
def keys (m : OrdMap κ α) : List κ := m.entries.map (·.1)

/-- The values in order of insertion. -/
def values (m : OrdMap κ α) : List α := m.entries.map (·.2)

/-- How many keys there are. -/
def size (m : OrdMap κ α) : Nat := m.entries.length

/-- Applies a function to every value. -/
def mapValues (f : α → β) (m : OrdMap κ α) : OrdMap κ β := ⟨m.entries.map fun e ↦ (e.1, f e.2)⟩

/-- Keeps the entries whose key passes a test. -/
def filterKeys (p : κ → Bool) (m : OrdMap κ α) : OrdMap κ α := ⟨m.entries.filter fun e ↦ p e.1⟩

variable [DecidableEq κ]

/-- The value at a key in a row of entries. -/
def lookup (k : κ) : List (κ × α) → Option α
  | [] => none
  | e :: es => if e.1 = k then some e.2 else lookup k es

/-- Puts a value at a key in a row of entries. -/
def put (k : κ) (a : α) : List (κ × α) → List (κ × α)
  | [] => [(k, a)]
  | e :: es => if e.1 = k then (k, a) :: es else e :: put k a es

/-- The value at a key. -/
def get? (m : OrdMap κ α) (k : κ) : Option α := lookup k m.entries

/-- Whether there is a value at a key. -/
def contains (m : OrdMap κ α) (k : κ) : Bool := (m.get? k).isSome

/-- Puts a value at a key. -/
def insert (m : OrdMap κ α) (k : κ) (a : α) : OrdMap κ α := ⟨put k a m.entries⟩

/-- Puts the entries of a row, one after the other. -/
def insertAll (m : OrdMap κ α) (es : List (κ × α)) : OrdMap κ α :=
  es.foldl (fun m e ↦ m.insert e.1 e.2) m

/-- The map with the entries of a row; of two values for one key the later counts. -/
def ofList (es : List (κ × α)) : OrdMap κ α := insertAll ∅ es

theorem lookup_put (k k' : κ) (a : α) (es : List (κ × α)) :
    lookup k' (put k a es) = if k = k' then some a else lookup k' es := by
  induction es with
  | nil => simp [put, lookup]
  | cons e es ih =>
    by_cases h : e.1 = k
    · by_cases h' : k = k' <;> simp [put, lookup, h, h']
    · by_cases h' : e.1 = k'
      · subst h'
        simp [put, lookup, h, Ne.symm h]
      · simp [put, lookup, h, h', ih]

@[simp] theorem get?_empty (k : κ) : (∅ : OrdMap κ α).get? k = none := rfl

theorem get?_insert (m : OrdMap κ α) (k k' : κ) (a : α) :
    (m.insert k a).get? k' = if k = k' then some a else m.get? k' :=
  lookup_put k k' a m.entries

@[simp] theorem get?_insert_self (m : OrdMap κ α) (k : κ) (a : α) :
    (m.insert k a).get? k = some a := by
  simp [get?_insert]

/-- What holds of all entries holds after an insertion if it holds of the new one. -/
theorem forall_get?_insert {m : OrdMap κ α} {P : κ → α → Prop} {k : κ} {a : α}
    (h : ∀ k' b, m.get? k' = some b → P k' b) (ha : P k a) (k' : κ) (b : α)
    (hb : (m.insert k a).get? k' = some b) : P k' b := by
  rw [get?_insert] at hb
  split at hb
  · rename_i heq
    cases hb
    exact heq ▸ ha
  · exact h k' b hb

theorem put_of_notMem {k : κ} {a : α} {es : List (κ × α)} (h : k ∉ es.map (·.1)) :
    put k a es = es ++ [(k, a)] := by
  induction es with
  | nil => rfl
  | cons e es ih =>
    rw [List.map_cons, List.mem_cons, not_or] at h
    rw [put, if_neg (Ne.symm h.1), ih h.2, List.cons_append]

theorem keys_put (k : κ) (a : α) (es : List (κ × α)) :
    (put k a es).map (·.1) = if k ∈ es.map (·.1) then es.map (·.1) else es.map (·.1) ++ [k] := by
  induction es with
  | nil => simp [put]
  | cons e es ih =>
    by_cases h : e.1 = k
    · simp [put, h]
    · have h' : ¬ k = e.1 := Ne.symm h
      rw [put, if_neg h, List.map_cons, ih, List.map_cons]
      by_cases hm : k ∈ es.map (·.1)
      · rw [if_pos hm, if_pos (List.mem_cons_of_mem _ hm)]
      · rw [if_neg hm, if_neg (by simpa [h'] using hm), List.cons_append]

/-- A key that was there keeps its place, a new one comes last. -/
theorem keys_insert (m : OrdMap κ α) (k : κ) (a : α) :
    (m.insert k a).keys = if k ∈ m.keys then m.keys else m.keys ++ [k] :=
  keys_put k a m.entries

theorem mem_put {e : κ × α} {k : κ} {a : α} {es : List (κ × α)} (h : e ∈ put k a es) :
    e = (k, a) ∨ e ∈ es := by
  induction es with
  | nil => exact .inl (by simpa [put] using h)
  | cons d es ih =>
    rw [put] at h
    split at h
    · exact (List.mem_cons.1 h).imp_right (List.mem_cons_of_mem _)
    · rcases List.mem_cons.1 h with h | h
      · exact .inr (h ▸ List.mem_cons_self)
      · exact (ih h).imp_right (List.mem_cons_of_mem _)

theorem mem_values_insert {m : OrdMap κ α} {k : κ} {a b : α} (h : b ∈ (m.insert k a).values) :
    b = a ∨ b ∈ m.values := by
  obtain ⟨d, hd, rfl⟩ := List.mem_map.1 h
  rcases mem_put hd with rfl | hd
  · exact .inl rfl
  · exact .inr (List.mem_map_of_mem hd)

/-- Every value after a row of insertions is one of the row or was there before. -/
theorem mem_values_insertAll {m : OrdMap κ α} {es : List (κ × α)} {a : α}
    (h : a ∈ (m.insertAll es).values) : a ∈ es.map (·.2) ∨ a ∈ m.values := by
  induction es generalizing m with
  | nil => exact .inr h
  | cons e es ih =>
    rcases ih h with h | h
    · exact .inl (List.mem_cons_of_mem _ h)
    · rcases mem_values_insert h with rfl | h
      · exact .inl List.mem_cons_self
      · exact .inr h

theorem lookup_map (f : α → β) (k : κ) (es : List (κ × α)) :
    lookup k (es.map fun e ↦ (e.1, f e.2)) = (lookup k es).map f := by
  induction es with
  | nil => rfl
  | cons e es ih =>
    rw [List.map_cons, lookup, lookup, ih]
    split <;> rfl

theorem get?_mapValues (f : α → β) (m : OrdMap κ α) (k : κ) :
    (m.mapValues f).get? k = (m.get? k).map f :=
  lookup_map f k m.entries

theorem put_map (f : α → β) (k : κ) (a : α) (es : List (κ × α)) :
    (put k a es).map (fun e ↦ (e.1, f e.2)) = put k (f a) (es.map fun e ↦ (e.1, f e.2)) := by
  induction es with
  | nil => rfl
  | cons e es ih =>
    rw [put, List.map_cons, put]
    split
    · rfl
    · rw [List.map_cons, ih]

theorem mapValues_insert (f : α → β) (m : OrdMap κ α) (k : κ) (a : α) :
    (m.insert k a).mapValues f = (m.mapValues f).insert k (f a) :=
  congrArg OrdMap.mk (put_map f k a m.entries)

theorem mapValues_insertAll (f : α → β) (m : OrdMap κ α) (es : List (κ × α)) :
    (m.insertAll es).mapValues f = (m.mapValues f).insertAll (es.map fun e ↦ (e.1, f e.2)) := by
  induction es generalizing m with
  | nil => rfl
  | cons e es ih =>
    rw [insertAll, List.foldl_cons, List.map_cons]
    exact (ih _).trans (congrArg (insertAll · _) (mapValues_insert f m e.1 e.2))

theorem get?_eq_none_iff {m : OrdMap κ α} {k : κ} : m.get? k = none ↔ k ∉ m.keys := by
  obtain ⟨es⟩ := m
  rw [get?, keys]
  induction es with
  | nil => simp [lookup]
  | cons e es ih =>
    rw [lookup]
    split <;> simp_all [eq_comm]

theorem isSome_get?_iff {m : OrdMap κ α} {k : κ} : (m.get? k).isSome ↔ k ∈ m.keys := by
  rw [← Option.ne_none_iff_isSome, ne_eq, get?_eq_none_iff, Decidable.not_not]

theorem get?_filterKeys (p : κ → Bool) (m : OrdMap κ α) (k : κ) :
    (m.filterKeys p).get? k = if p k then m.get? k else none := by
  obtain ⟨es⟩ := m
  rw [filterKeys, get?, get?]
  induction es with
  | nil => simp [lookup]
  | cons e es ih =>
    rw [List.filter_cons]
    by_cases hk : e.1 = k
    · by_cases hp : p e.1 <;> simp_all [lookup]
    · by_cases hp : p e.1 <;> simp_all [lookup]

/-- Looking up in entries whose values are changed key by key. -/
theorem lookup_mapEntries (f : κ → α → β) (k : κ) (es : List (κ × α)) :
    lookup k (es.map fun e ↦ (e.1, f e.1 e.2)) = (lookup k es).map (f k) := by
  induction es with
  | nil => rfl
  | cons e es ih =>
    rw [List.map_cons, lookup, lookup]
    split
    · rename_i h
      rw [← h]
      rfl
    · exact ih

theorem isSome_get?_insertAll {m : OrdMap κ α} {es : List (κ × α)} {k : κ}
    (h : k ∈ es.map (·.1) ∨ (m.get? k).isSome) : ((m.insertAll es).get? k).isSome := by
  induction es generalizing m with
  | nil => exact h.resolve_left nofun
  | cons e es ih =>
    refine ih (m := m.insert e.1 e.2) ?_
    rw [get?_insert]
    rcases h with h | h
    · rcases List.mem_cons.1 h with rfl | h
      · simp
      · exact .inl h
    · right
      split
      · rfl
      · exact h

theorem get?_of_mem_entries {m : OrdMap κ α} {k : κ} {a : α} (hkeys : m.keys.Nodup)
    (h : (k, a) ∈ m.entries) : m.get? k = some a := by
  obtain ⟨es⟩ := m
  rw [keys] at hkeys
  rw [get?]
  induction es with
  | nil => cases h
  | cons e es ih =>
    rw [List.map_cons, List.nodup_cons] at hkeys
    rcases List.mem_cons.1 h with rfl | h
    · rw [lookup, if_pos rfl]
    · rw [lookup, if_neg, ih hkeys.2 h]
      rintro rfl
      exact hkeys.1 (List.mem_map.2 ⟨_, h, rfl⟩)

theorem mem_entries_of_get? {m : OrdMap κ α} {k : κ} {a : α} (h : m.get? k = some a) :
    (k, a) ∈ m.entries := by
  obtain ⟨es⟩ := m
  rw [get?] at h
  induction es with
  | nil => cases h
  | cons e es ih =>
    rw [lookup] at h
    split at h
    · rename_i hk
      cases h
      exact hk ▸ List.mem_cons_self
    · exact List.mem_cons_of_mem _ (ih h)

theorem mem_values_of_get? {m : OrdMap κ α} {k : κ} {a : α} (h : m.get? k = some a) :
    a ∈ m.values :=
  List.mem_map.2 ⟨(k, a), mem_entries_of_get? h, rfl⟩

end OrdMap

end SchemeTyping
