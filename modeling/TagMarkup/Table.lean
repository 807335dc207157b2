import TagMarkup.Text

/-! Tables from texts to values, with one entry per key, in the order in which the keys came in.
`get?` is the view of a table that the lemmas on `insert` and `erase` speak about. -/

namespace TagMarkup

universe u

/-- Entries with distinct keys. -/
structure Table (α : Type u) where
  entries : List (Text × α)
  nodup : (entries.map Prod.fst).Nodup

namespace Table

variable {α : Type u}

def empty : Table α := ⟨[], List.nodup_nil⟩

instance : EmptyCollection (Table α) := ⟨empty⟩

instance : Inhabited (Table α) := ⟨empty⟩

def find? (key : Text) : List (Text × α) → Option α
  | [] => none
  | (k, v) :: rest => if k = key then some v else find? key rest

/-- The entries with the value under `key` replaced, or with a last entry added. -/
def put (key : Text) (value : α) : List (Text × α) → List (Text × α)
  | [] => [(key, value)]
  | (k, v) :: rest => if k = key then (k, value) :: rest else (k, v) :: put key value rest

theorem mem_keys_put {key k : Text} {value : α} {es : List (Text × α)} :
    k ∈ (put key value es).map Prod.fst ↔ k = key ∨ k ∈ es.map Prod.fst := by
  fun_induction put key value es with
  | case1 => simp
  | case2 v rest => simp
  | case3 j v rest hj ih =>
    rw [List.map_cons, List.mem_cons, ih, List.map_cons, List.mem_cons]
    exact ⟨fun h => h.elim (fun h => .inr (.inl h)) (fun h => h.imp id .inr),
      fun h => h.elim (fun h => .inr (.inl h)) (fun h => h.imp id .inr)⟩

theorem nodup_put (key : Text) (value : α) {es : List (Text × α)}
    (h : (es.map Prod.fst).Nodup) : ((put key value es).map Prod.fst).Nodup := by
  fun_induction put key value es with
  | case1 => simp
  | case2 v rest => simpa using h
  | case3 j v rest hj ih =>
    rw [List.map_cons, List.nodup_cons] at h ⊢
    refine ⟨fun hm => ?_, ih h.2⟩
    exact (mem_keys_put.1 hm).elim hj h.1

theorem find?_put (key k : Text) (value : α) (es : List (Text × α)) :
    find? k (put key value es) = if k = key then some value else find? k es := by
  fun_induction put key value es with
  | case1 => simp [find?, eq_comm]
  | case2 v rest => by_cases h : k = key <;> simp [find?, h, Ne.symm]
  | case3 j v rest hj ih =>
    by_cases h : j = k
    · subst h; simp [find?, hj]
    · simp [find?, h, ih]

theorem find?_filter (key k : Text) (es : List (Text × α)) :
    find? k (es.filter (·.1 ≠ key)) = if k = key then none else find? k es := by
  induction es with
  | nil => simp [find?]
  | cons e es ih =>
    obtain ⟨j, v⟩ := e
    by_cases hj : j = key
    · subst hj
      rw [List.filter_cons_of_neg (by simp), ih]
      by_cases h : k = j
      · simp [h]
      · simp [find?, h, Ne.symm h]
    · rw [List.filter_cons_of_pos (by simpa using hj), find?, find?, ih]
      by_cases h : j = k
      · subst h; simp [hj]
      · simp [h]

def get? (t : Table α) (key : Text) : Option α := find? key t.entries

def contains (t : Table α) (key : Text) : Bool := (t.get? key).isSome

def insert (t : Table α) (key : Text) (value : α) : Table α :=
  ⟨put key value t.entries, nodup_put key value t.nodup⟩

def erase (t : Table α) (key : Text) : Table α :=
  ⟨t.entries.filter (·.1 ≠ key), t.nodup.sublist (List.filter_sublist.map Prod.fst)⟩

def keys (t : Table α) : List Text := t.entries.map Prod.fst

/-- The keys in the order of their code points, which is the order of their UTF-8 bytes too. -/
def sortedKeys (t : Table α) : List Text := t.keys.mergeSort fun a b => !List.lex b a (· < ·)

def size (t : Table α) : Nat := t.entries.length

@[simp] theorem get?_insert (t : Table α) (key : Text) (value : α) (k : Text) :
    (t.insert key value).get? k = if k = key then some value else t.get? k :=
  find?_put key k value t.entries

@[simp] theorem get?_erase (t : Table α) (key k : Text) :
    (t.erase key).get? k = if k = key then none else t.get? k :=
  find?_filter key k t.entries

end Table

end TagMarkup
