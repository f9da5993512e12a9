import Mathlib

/-!
# Maps that may be nil and are met in any order

A map of Go is nil or a finite table. A nil map reads as empty and deleting from it does
nothing, but writing to it panics. A loop over a map meets every key once, in an order that
the program does not choose.
-/

/-- A map from `κ` to `α`. -/
inductive GoMap (κ α : Type) where
  | nil
  | made (table : Finmap fun _ : κ => α)

namespace GoMap

variable {κ α : Type}

/-- What a map reads as. -/
def table : GoMap κ α → Finmap fun _ : κ => α
  | nil => ∅
  | made t => t

def isNil : GoMap κ α → Bool
  | nil => true
  | made _ => false

/-- `make(map)`. -/
def make : GoMap κ α :=
  made ∅

/-- The map, made if it is nil. -/
def orMake : GoMap κ α → GoMap κ α
  | nil => make
  | made t => made t

/-- The keys of a map. -/
def keys (m : GoMap κ α) : Finset κ :=
  m.table.keys

/-- `len(m)`. -/
def len (m : GoMap κ α) : Nat :=
  m.keys.card

/-- An order in which a loop may meet the keys. -/
structure Order (keys : Finset κ) where
  list : List κ
  nodup : list.Nodup
  mem_list : ∀ k, k ∈ list ↔ k ∈ keys

variable [DecidableEq κ]

/-- `value, ok := m[k]`. -/
def get (m : GoMap κ α) (k : κ) : Option α :=
  m.table.lookup k

/-- `m[k] = v`, where `none` is the panic. -/
def set (m : GoMap κ α) (k : κ) (v : α) : Option (GoMap κ α) :=
  match m with
  | nil => none
  | made t => some (made (t.insert k v))

/-- `delete(m, k)`. -/
def delete (m : GoMap κ α) (k : κ) : GoMap κ α :=
  match m with
  | nil => nil
  | made t => made (t.erase k)

/-- `maps.Copy(dst, src)`, where `none` is the panic. -/
def copy (dst src : GoMap κ α) : Option (GoMap κ α) :=
  match dst with
  | nil => if src.len = 0 then some nil else none
  | made t => some (made (src.table ∪ t))

/-- The entries, in the order in which a loop meets them. -/
def entries (m : GoMap κ α) (order : Order m.keys) : List (κ × α) :=
  order.list.filterMap fun k => (m.get k).map fun v => (k, v)

@[simp] theorem get_nil (k : κ) : (nil : GoMap κ α).get k = none := rfl

@[simp] theorem get_make (k : κ) : (make : GoMap κ α).get k = none := rfl

theorem mem_keys {m : GoMap κ α} {k : κ} : k ∈ m.keys ↔ ∃ v, m.get k = some v := by
  rw [keys, Finmap.mem_keys, Finmap.mem_iff]
  rfl

theorem get_insert (t : Finmap fun _ : κ => α) (k : κ) (v : α) (i : κ) :
    (made (t.insert k v)).get i = if i = k then some v else (made t).get i := by
  unfold get table
  split_ifs with h
  · rw [h, Finmap.lookup_insert]
  · rw [Finmap.lookup_insert_of_ne _ h]

theorem get_delete (m : GoMap κ α) (k i : κ) :
    (m.delete k).get i = if i = k then none else m.get i := by
  cases m with
  | nil => simp [delete]
  | made t =>
      unfold delete get table
      split_ifs with h
      · rw [h, Finmap.lookup_erase]
      · rw [Finmap.lookup_erase_ne h]

/-- **A map that is not nil can be written.** -/
theorem exists_set {m : GoMap κ α} (h : m.isNil = false) (k : κ) (v : α) :
    ∃ m', m.set k v = some m' ∧ m'.isNil = false ∧
      ∀ i, m'.get i = if i = k then some v else m.get i := by
  cases m with
  | nil => nomatch h
  | made t => exact ⟨_, rfl, rfl, get_insert t k v⟩

omit [DecidableEq κ] in
@[simp] theorem isNil_orMake (m : GoMap κ α) : m.orMake.isNil = false := by
  cases m <;> rfl

@[simp] theorem get_orMake (m : GoMap κ α) (k : κ) : m.orMake.get k = m.get k := by
  cases m <;> rfl

theorem isNil_delete (m : GoMap κ α) (k : κ) : (m.delete k).isNil = m.isNil := by
  cases m <;> rfl

/-- **A map that is not nil can be copied to**, and the copied entries come first. -/
theorem exists_copy {dst : GoMap κ α} (h : dst.isNil = false) (src : GoMap κ α) :
    ∃ m, dst.copy src = some m ∧ m.isNil = false ∧
      ∀ k, m.get k = (src.get k).or (dst.get k) := by
  cases dst with
  | nil => nomatch h
  | made t =>
      refine ⟨_, rfl, rfl, fun k => ?_⟩
      unfold get
      by_cases hk : k ∈ src.table
      · obtain ⟨v, hv⟩ := Finmap.mem_iff.1 hk
        rw [table, Finmap.lookup_union_left hk, hv]
        rfl
      · rw [table, Finmap.lookup_union_right hk, Finmap.lookup_eq_none.2 hk]
        rfl

/-- A map of length zero has no entry. -/
theorem len_eq_zero {m : GoMap κ α} : m.len = 0 ↔ ∀ k, m.get k = none := by
  rw [len, Finset.card_eq_zero, Finset.eq_empty_iff_forall_notMem]
  constructor
  · intro h k
    rw [Option.eq_none_iff_forall_ne_some]
    exact fun v hv => h k (mem_keys.2 ⟨v, hv⟩)
  · intro h k hk
    obtain ⟨v, hv⟩ := mem_keys.1 hk
    rw [h k] at hv
    nomatch hv

/-- A list of the entries of a map, each once. -/
structure Enumerates (m : GoMap κ α) (l : List (κ × α)) : Prop where
  nodup : (l.map Prod.fst).Nodup
  mem_iff : ∀ k v, (k, v) ∈ l ↔ m.get k = some v

/-- An entry is not met again. -/
theorem Enumerates.not_mem_done {m : GoMap κ α} {l done rest : List (κ × α)} {k : κ} {v : α}
    (h : m.Enumerates l) (hl : l = done ++ (k, v) :: rest) : k ∉ done.map Prod.fst := by
  have hnodup := h.nodup
  rw [hl, List.map_append, List.map_cons] at hnodup
  intro hk
  exact (List.nodup_append.1 hnodup).2.2 k hk k (List.mem_cons_self ..) rfl

/-- An entry that is met is one of the map. -/
theorem Enumerates.get_of_met {m : GoMap κ α} {l done rest : List (κ × α)} {k : κ} {v : α}
    (h : m.Enumerates l) (hl : l = done ++ (k, v) :: rest) : m.get k = some v := by
  refine (h.mem_iff k v).1 ?_
  rw [hl]
  exact List.mem_append_right _ (List.mem_cons_self ..)

/-- Every key of the map is met. -/
theorem Enumerates.mem_map_fst {m : GoMap κ α} {l : List (κ × α)} (h : m.Enumerates l) {k : κ} :
    k ∈ l.map Prod.fst ↔ ∃ v, m.get k = some v := by
  rw [List.mem_map]
  constructor
  · intro ⟨⟨i, v⟩, hv, hk⟩
    exact ⟨v, hk ▸ (h.mem_iff i v).1 hv⟩
  · intro ⟨v, hv⟩
    exact ⟨(k, v), (h.mem_iff k v).2 hv, rfl⟩

/-- A map without entries is met as the empty list. -/
theorem Enumerates.eq_nil {m : GoMap κ α} {l : List (κ × α)} (h : m.Enumerates l)
    (hm : m.len = 0) : l = [] := by
  refine List.eq_nil_iff_forall_not_mem.2 fun ⟨k, v⟩ hk => ?_
  have hv := (h.mem_iff k v).1 hk
  rw [len_eq_zero.1 hm k] at hv
  nomatch hv

/-- **A loop meets every entry once.** -/
theorem enumerates_entries (m : GoMap κ α) (order : Order m.keys) :
    m.Enumerates (m.entries order) := by
  have hmem : ∀ k v, (k, v) ∈ m.entries order ↔ m.get k = some v := by
    intro k v
    simp only [entries, List.mem_filterMap, Option.map_eq_some_iff, Prod.mk.injEq]
    constructor
    · intro ⟨i, _, u, hu, hi, huv⟩
      rw [← hi, ← huv]
      exact hu
    · intro hv
      exact ⟨k, (order.mem_list k).2 (mem_keys.2 ⟨v, hv⟩), v, hv, rfl, rfl⟩
  refine ⟨?_, hmem⟩
  have hkeys : (m.entries order).map Prod.fst = order.list.filter fun k => (m.get k).isSome := by
    unfold entries
    induction order.list with
    | nil => rfl
    | cons k rest ih =>
        cases hk : m.get k with
        | none => simp [hk, ih]
        | some v => simp [hk, ih]
  rw [hkeys]
  exact order.nodup.filter _

end GoMap
