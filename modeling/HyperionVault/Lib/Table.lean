import Mathlib.Algebra.Group.Int.Defs
import Mathlib.Algebra.Group.Nat.Defs
import Mathlib.Data.List.Lex
import Mathlib.Order.Lattice

/-!
# Ordered tables

A key-value table as an embedded store keeps it: at most one row for each key, rows iterated in
key order.

* `Table K V` : the rows, strictly increasing in the key (`sorted` is part of the type);
* `get`, `insert`, `remove`, `keys` : the operations of one table;
* `insertAll`, `removeAll`, `ofRows` : the loops that write or remove a list of rows;
* `mem_rows` : the rows are exactly the graph of `get`;
* `ext_get` : two tables that answer every `get` alike are equal.
-/

namespace Lib

/-- Rows strictly increasing in the key. -/
structure Table (K V : Type) [LinearOrder K] where
  rows : List (K × V)
  sorted : rows.Pairwise (fun a b => a.1 < b.1)
deriving DecidableEq

namespace Table

variable {K V : Type} [LinearOrder K]

def empty : Table K V := ⟨[], List.Pairwise.nil⟩

/-! ## Lookup -/

def getRows (k : K) : List (K × V) → Option V
  | [] => none
  | (a, v) :: rest => if a = k then some v else getRows k rest

def get (t : Table K V) (k : K) : Option V := getRows k t.rows

theorem getRows_cons (k : K) (r : K × V) (l : List (K × V)) :
    getRows k (r :: l) = if r.1 = k then some r.2 else getRows k l := rfl

theorem getRows_eq_none {k : K} {l : List (K × V)} (h : ∀ r ∈ l, r.1 ≠ k) : getRows k l = none := by
  induction l with
  | nil => rfl
  | cons r l ih =>
      rw [getRows_cons, if_neg (h r List.mem_cons_self)]
      exact ih (fun r' hr' => h r' (List.mem_cons_of_mem _ hr'))

theorem mem_of_getRows {k : K} {v : V} {l : List (K × V)} (h : getRows k l = some v) : (k, v) ∈ l := by
  induction l with
  | nil => simp [getRows] at h
  | cons r l ih =>
      rw [getRows_cons] at h
      split_ifs at h with hk
      · cases h
        exact hk ▸ List.mem_cons_self
      · exact List.mem_cons_of_mem _ (ih h)

theorem getRows_of_mem {k : K} {v : V} {l : List (K × V)} (hs : l.Pairwise (fun a b => a.1 < b.1))
    (h : (k, v) ∈ l) : getRows k l = some v := by
  induction l with
  | nil => simp at h
  | cons r l ih =>
      obtain ⟨hlt, hs⟩ := List.pairwise_cons.mp hs
      rcases List.mem_cons.mp h with h | h
      · rw [← h, getRows_cons, if_pos rfl]
      · rw [getRows_cons, if_neg (hlt _ h).ne]
        exact ih hs h

/-- The rows are the graph of `get`. -/
theorem mem_rows {t : Table K V} {k : K} {v : V} : (k, v) ∈ t.rows ↔ t.get k = some v :=
  ⟨getRows_of_mem t.sorted, mem_of_getRows⟩

theorem get_eq_none_iff {t : Table K V} {k : K} : t.get k = none ↔ ∀ v, (k, v) ∉ t.rows := by
  constructor
  · intro h v hv
    rw [mem_rows.mp hv] at h
    cases h
  · intro h
    exact getRows_eq_none fun r hr hk => h r.2 (hk ▸ hr)

@[simp] theorem get_empty (k : K) : (empty : Table K V).get k = none := rfl

theorem rows_ext {l l' : List (K × V)} (hs : l.Pairwise (fun a b => a.1 < b.1))
    (hs' : l'.Pairwise (fun a b => a.1 < b.1)) (h : ∀ r, r ∈ l ↔ r ∈ l') : l = l' := by
  have hanti : ∀ a b : K × V, a.1 < b.1 → b.1 < a.1 → a = b := fun a b hab hba => absurd hab hba.asymm
  have hnodup : ∀ {m : List (K × V)}, m.Pairwise (fun a b => a.1 < b.1) → m.Nodup := fun hm =>
    hm.imp fun {a b} (hab : a.1 < b.1) (heq : a = b) => absurd hab (heq ▸ lt_irrefl _)
  exact List.Perm.eq_of_pairwise (fun a b _ _ => hanti a b) hs hs'
    ((List.perm_ext_iff_of_nodup (hnodup hs) (hnodup hs')).mpr h)

theorem ext_rows {t t' : Table K V} (h : t.rows = t'.rows) : t = t' := by
  cases t
  cases t'
  cases h
  rfl

/-- Tables that answer every `get` alike are equal. -/
theorem ext_get {t t' : Table K V} (h : ∀ k, t.get k = t'.get k) : t = t' := by
  refine ext_rows (rows_ext t.sorted t'.sorted fun r => ?_)
  change (r.1, r.2) ∈ t.rows ↔ (r.1, r.2) ∈ t'.rows
  rw [mem_rows, mem_rows, h r.1]

/-! ## Insertion -/

def insertRow (k : K) (v : V) : List (K × V) → List (K × V)
  | [] => [(k, v)]
  | r :: rest =>
      if r.1 < k then r :: insertRow k v rest
      else if r.1 = k then (k, v) :: rest
      else (k, v) :: r :: rest

theorem mem_insertRow {k : K} {v : V} {l : List (K × V)} {r : K × V} (h : r ∈ insertRow k v l) :
    r = (k, v) ∨ r ∈ l := by
  induction l with
  | nil => exact Or.inl (List.mem_singleton.mp h)
  | cons a l ih =>
      rw [insertRow] at h
      split_ifs at h with h1 h2
      · rcases List.mem_cons.mp h with h | h
        · exact Or.inr (h ▸ List.mem_cons_self)
        · exact (ih h).imp id (List.mem_cons_of_mem _)
      · rcases List.mem_cons.mp h with h | h
        · exact Or.inl h
        · exact Or.inr (List.mem_cons_of_mem _ h)
      · exact List.mem_cons.mp h

theorem insertRow_sorted (k : K) (v : V) {l : List (K × V)} (hs : l.Pairwise (fun a b => a.1 < b.1)) :
    (insertRow k v l).Pairwise (fun a b => a.1 < b.1) := by
  induction l with
  | nil => exact List.pairwise_singleton _ _
  | cons a l ih =>
      obtain ⟨hlt, hs'⟩ := List.pairwise_cons.mp hs
      rw [insertRow]
      split_ifs with h1 h2
      · refine List.pairwise_cons.mpr ⟨fun r hr => ?_, ih hs'⟩
        rcases mem_insertRow hr with h | h
        · exact h ▸ h1
        · exact hlt r h
      · exact List.pairwise_cons.mpr ⟨fun r hr => h2 ▸ hlt r hr, hs'⟩
      · have hka : k < a.1 := lt_of_le_of_ne (not_lt.mp h1) (Ne.symm h2)
        refine List.pairwise_cons.mpr ⟨fun r hr => ?_, hs⟩
        rcases List.mem_cons.mp hr with h | h
        · exact h ▸ hka
        · exact hka.trans (hlt r h)

def insert (t : Table K V) (k : K) (v : V) : Table K V := ⟨insertRow k v t.rows, insertRow_sorted k v t.sorted⟩

theorem getRows_insertRow (k : K) (v : V) (l : List (K × V)) (k' : K) :
    getRows k' (insertRow k v l) = if k = k' then some v else getRows k' l := by
  induction l with
  | nil => rfl
  | cons a l ih =>
      rw [insertRow]
      by_cases h1 : a.1 < k
      · rw [if_pos h1, getRows_cons, getRows_cons, ih]
        by_cases h2 : a.1 = k'
        · rw [if_pos h2, if_pos h2, if_neg (h2 ▸ h1.ne')]
        · rw [if_neg h2, if_neg h2]
      · rw [if_neg h1]
        by_cases h2 : a.1 = k
        · rw [if_pos h2, getRows_cons, getRows_cons, h2]
          split_ifs <;> rfl
        · rw [if_neg h2, getRows_cons]

theorem get_insert (t : Table K V) (k : K) (v : V) (k' : K) :
    (t.insert k v).get k' = if k = k' then some v else t.get k' := getRows_insertRow k v t.rows k'

@[simp] theorem get_insert_self (t : Table K V) (k : K) (v : V) : (t.insert k v).get k = some v := by
  rw [get_insert, if_pos rfl]

theorem get_insert_of_ne (t : Table K V) {k k' : K} (v : V) (h : k ≠ k') :
    (t.insert k v).get k' = t.get k' := by
  rw [get_insert, if_neg h]

/-! ## Removal -/

def remove (t : Table K V) (k : K) : Table K V := ⟨t.rows.filter (fun r => r.1 ≠ k), t.sorted.filter _⟩

theorem get_remove (t : Table K V) (k k' : K) : (t.remove k).get k' = if k = k' then none else t.get k' := by
  split_ifs with h
  · exact get_eq_none_iff.mpr fun v hv => by simp [remove, h] at hv
  · apply Option.ext
    intro v
    rw [← mem_rows, ← mem_rows, remove, List.mem_filter]
    simp [Ne.symm h]

theorem remove_of_get_none {t : Table K V} {k : K} (h : t.get k = none) : t.remove k = t := by
  apply ext_get
  intro k'
  rw [get_remove]
  split_ifs with hk
  · exact (hk ▸ h).symm
  · rfl

def keys (t : Table K V) : List K := t.rows.map Prod.fst

theorem mem_keys {t : Table K V} {k : K} : k ∈ t.keys ↔ (t.get k).isSome := by
  rw [Option.isSome_iff_exists]
  constructor
  · intro h
    obtain ⟨r, hr, rfl⟩ := List.mem_map.mp h
    exact ⟨r.2, mem_rows.mp hr⟩
  · rintro ⟨v, hv⟩
    exact List.mem_map.mpr ⟨(k, v), mem_rows.mpr hv, rfl⟩

/-! ## Loops over keys and rows -/

def removeAll (t : Table K V) (ks : List K) : Table K V := ks.foldl remove t

theorem get_removeAll (ks : List K) (t : Table K V) (k : K) :
    (t.removeAll ks).get k = if k ∈ ks then none else t.get k := by
  induction ks generalizing t with
  | nil => rfl
  | cons a ks ih =>
      rw [removeAll, List.foldl_cons]
      rw [show ks.foldl remove (t.remove a) = (t.remove a).removeAll ks from rfl, ih, get_remove]
      by_cases hk : k ∈ ks
      · rw [if_pos hk, if_pos (List.mem_cons_of_mem _ hk)]
      · by_cases ha : a = k
        · rw [if_neg hk, if_pos ha, if_pos (ha ▸ List.mem_cons_self)]
        · rw [if_neg hk, if_neg ha, if_neg]
          simp [hk, Ne.symm ha]

@[simp] theorem removeAll_keys (t : Table K V) : t.removeAll t.keys = empty := by
  apply ext_get
  intro k
  rw [get_removeAll, get_empty]
  split_ifs with hk
  · rfl
  · rw [mem_keys, Bool.not_eq_true, Option.isSome_eq_false_iff, Option.isNone_iff_eq_none] at hk
    exact hk

def insertAll (t : Table K V) (rows : List (K × V)) : Table K V :=
  rows.foldl (fun t r => t.insert r.1 r.2) t

/-- The table a list of rows leaves in an empty table; of two rows for a key the later wins. -/
def ofRows (rows : List (K × V)) : Table K V := empty.insertAll rows

/-- The value a list of rows leaves under `k`. -/
def lastRow (k : K) (rows : List (K × V)) : Option V := getRows k rows.reverse

theorem getRows_append (k : K) (l l' : List (K × V)) :
    getRows k (l ++ l') = (getRows k l).or (getRows k l') := by
  induction l with
  | nil => rfl
  | cons r l ih =>
      rw [List.cons_append, getRows_cons, getRows_cons]
      split_ifs
      · rfl
      · exact ih

theorem lastRow_cons (k : K) (r : K × V) (rows : List (K × V)) :
    lastRow k (r :: rows) = (lastRow k rows).or (getRows k [r]) := by
  rw [lastRow, List.reverse_cons, getRows_append]
  rfl

theorem get_insertAll (rows : List (K × V)) (t : Table K V) (k : K) :
    (t.insertAll rows).get k = (lastRow k rows).or (t.get k) := by
  induction rows generalizing t with
  | nil => rfl
  | cons r rows ih =>
      rw [insertAll, List.foldl_cons]
      rw [show rows.foldl (fun t r => t.insert r.1 r.2) (t.insert r.1 r.2) =
        (t.insert r.1 r.2).insertAll rows from rfl, ih, lastRow_cons, Option.or_assoc, get_insert]
      congr 1
      rw [getRows_cons]
      split_ifs <;> rfl

theorem get_ofRows (rows : List (K × V)) (k : K) : (ofRows rows).get k = lastRow k rows := by
  rw [ofRows, get_insertAll, get_empty, Option.or_none]

theorem getRows_isSome_of_mem {r : K × V} {l : List (K × V)} (h : r ∈ l) : (getRows r.1 l).isSome := by
  induction l with
  | nil => simp at h
  | cons a l ih =>
      rw [getRows_cons]
      split_ifs with ha
      · rfl
      · rcases List.mem_cons.mp h with h | h
        · exact absurd (h ▸ rfl) ha
        · exact ih h

/-- The last row with a key is the one without another such row after it. -/
theorem lastRow_eq_some_iff {k : K} {v : V} {rows : List (K × V)} :
    lastRow k rows = some v ↔ ∃ before after, rows = before ++ (k, v) :: after ∧ k ∉ after.map Prod.fst := by
  induction rows with
  | nil => simp [lastRow, getRows]
  | cons row rows ih =>
      rw [lastRow_cons]
      constructor
      · cases hlast : lastRow k rows with
        | some v' =>
            intro heq
            obtain rfl : v' = v := Option.some.inj heq
            obtain ⟨before, after, rfl, hnot⟩ := ih.mp hlast
            exact ⟨row :: before, after, rfl, hnot⟩
        | none =>
            intro hrow
            obtain rfl := List.mem_singleton.mp (mem_of_getRows hrow)
            refine ⟨[], rows, rfl, fun hmem => ?_⟩
            obtain ⟨r, hr, rfl⟩ := List.mem_map.mp hmem
            have hsome := getRows_isSome_of_mem (List.mem_reverse.mpr hr)
            rw [show getRows r.1 rows.reverse = none from hlast] at hsome
            cases hsome
      · rintro ⟨before, after, heq, hnot⟩
        cases before with
        | nil =>
            cases heq
            have hnone : lastRow k rows = none := getRows_eq_none fun r hr hkey =>
              hnot (List.mem_map.mpr ⟨r, List.mem_reverse.mp hr, hkey⟩)
            rw [hnone, getRows_cons, if_pos rfl]
            rfl
        | cons b before =>
            cases heq
            rw [ih.mpr ⟨before, after, rfl, hnot⟩]
            rfl

theorem lastRow_rows (t : Table K V) (k : K) : lastRow k t.rows = t.get k := by
  apply Option.ext
  intro v
  rw [← mem_rows]
  constructor
  · intro h
    exact List.mem_reverse.mp (mem_of_getRows h)
  · intro h
    obtain ⟨w, hw⟩ := Option.isSome_iff_exists.mp (getRows_isSome_of_mem (List.mem_reverse.mpr h))
    have hwv : t.get k = some w := mem_rows.mp (List.mem_reverse.mp (mem_of_getRows hw))
    rw [mem_rows.mp h] at hwv
    exact hw.trans hwv.symm

/-- Writing back the rows of a table gives the table. -/
@[simp] theorem ofRows_rows (t : Table K V) : ofRows t.rows = t :=
  ext_get fun k => (get_ofRows t.rows k).trans (lastRow_rows t k)

/-! ## What all keys of a table have in common -/

/-- Every key of the table has the property. -/
def KeysIn (P : K → Prop) (t : Table K V) : Prop := ∀ k, (t.get k).isSome → P k

section KeysIn
variable {P : K → Prop} {t : Table K V}

theorem keysIn_empty : (empty : Table K V).KeysIn P := fun _ h => nomatch h

theorem keysIn_insert (h : t.KeysIn P) {k : K} (hk : P k) (v : V) : (t.insert k v).KeysIn P := by
  intro k' hk'
  rw [get_insert] at hk'
  split_ifs at hk' with he
  · exact he ▸ hk
  · exact h k' hk'

theorem keysIn_removeAll (h : t.KeysIn P) (ks : List K) : (t.removeAll ks).KeysIn P := by
  intro k hk
  rw [get_removeAll] at hk
  split_ifs at hk
  · cases hk
  · exact h k hk

theorem keysIn_remove (h : t.KeysIn P) (k : K) : (t.remove k).KeysIn P := keysIn_removeAll h [k]

theorem keysIn_ofRows {rows : List (K × V)} (h : ∀ r ∈ rows, P r.1) : (ofRows rows).KeysIn P := by
  intro k hk
  rw [get_ofRows] at hk
  obtain ⟨v, hv⟩ := Option.isSome_iff_exists.mp hk
  exact h (k, v) (List.mem_reverse.mp (mem_of_getRows hv))

theorem KeysIn.mem_rows (h : t.KeysIn P) {r : K × V} (hr : r ∈ t.rows) : P r.1 :=
  h r.1 (Option.isSome_iff_exists.mpr ⟨r.2, Table.mem_rows.mp hr⟩)

end KeysIn

end Table

end Lib
