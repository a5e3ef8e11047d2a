import HyperionVault.Lib.Table
import Mathlib.Data.List.Perm.Basic

/-!
# Tables as caches

A cache is a table that loses rows: expired ones, and others when it is full.

* `HashOrder` : the order in which the rows of a hash map come, which may be another one each time;
* `minByKey` : the first row with the least key in such an order;
* `Table.retain` : the rows with a property;
* `Table.RowsHold P` : `P` holds of every row; what is true of the rows that were put in stays true, whatever is lost;
* `length_insert_le`, `length_remove_lt`, `length_retain_le` : how many rows there are.
-/

namespace Lib

/-- Some order of the elements of a list. -/
structure HashOrder (α : Type) where
  list : List α → List α
  perm : ∀ l, (list l).Perm l

section MinByKey
variable {α : Type} (key : α → Nat)

/-- The first element with the least key. -/
def minByKey : List α → Option α
  | [] => none
  | a :: l => some (l.foldl (fun best b => if key b < key best then b else best) a)

variable {key}

theorem foldl_min_spec (a : α) (l : List α) :
    l.foldl (fun best b => if key b < key best then b else best) a ∈ a :: l ∧
      ∀ b ∈ a :: l, key (l.foldl (fun best b => if key b < key best then b else best) a) ≤ key b := by
  induction l generalizing a with
  | nil => simp
  | cons c l ih =>
      rw [List.foldl_cons]
      obtain ⟨hmem, hle⟩ := ih (if key c < key a then c else a)
      have hbest : key (if key c < key a then c else a) ≤ key a ∧ key (if key c < key a then c else a) ≤ key c := by
        split_ifs with hlt
        · exact ⟨hlt.le, le_rfl⟩
        · exact ⟨le_rfl, not_lt.mp hlt⟩
      have hfirst := hle _ List.mem_cons_self
      refine ⟨?_, fun b hb => ?_⟩
      · rcases List.mem_cons.mp hmem with hmem | hmem
        · rw [hmem]
          split_ifs
          · exact List.mem_cons_of_mem _ List.mem_cons_self
          · exact List.mem_cons_self
        · exact List.mem_cons_of_mem _ (List.mem_cons_of_mem _ hmem)
      · rcases List.mem_cons.mp hb with rfl | hb
        · exact hfirst.trans hbest.1
        · rcases List.mem_cons.mp hb with rfl | hb
          · exact hfirst.trans hbest.2
          · exact hle b (List.mem_cons_of_mem _ hb)

theorem mem_of_minByKey {l : List α} {m : α} (h : minByKey key l = some m) : m ∈ l := by
  cases l with
  | nil => cases h
  | cons a l =>
      cases h
      exact (foldl_min_spec a l).1

theorem minByKey_le {l : List α} {m b : α} (h : minByKey key l = some m) (hb : b ∈ l) : key m ≤ key b := by
  cases l with
  | nil => cases h
  | cons a l =>
      cases h
      exact (foldl_min_spec a l).2 b hb

theorem minByKey_eq_none {l : List α} (h : minByKey key l = none) : l = [] := by
  cases l with
  | nil => rfl
  | cons a l => cases h

end MinByKey

namespace Table
variable {K V : Type} [LinearOrder K]

def retain (t : Table K V) (keep : K × V → Bool) : Table K V := ⟨t.rows.filter keep, t.sorted.filter _⟩

theorem get_retain {t : Table K V} {keep : K × V → Bool} {k : K} {v : V} :
    (t.retain keep).get k = some v ↔ t.get k = some v ∧ keep (k, v) = true := by
  rw [← mem_rows, retain, List.mem_filter, mem_rows]

/-! ## What the rows hold -/

def RowsHold (P : K → V → Prop) (t : Table K V) : Prop := ∀ k v, t.get k = some v → P k v

section RowsHold
variable {P : K → V → Prop} {t : Table K V}

theorem rowsHold_empty : RowsHold P (Table.empty : Table K V) := fun _ _ h => by cases h

theorem RowsHold.mono {P' : K → V → Prop} (h : RowsHold P t) (hP : ∀ k v, P k v → P' k v) : RowsHold P' t :=
  fun k v hget => hP k v (h k v hget)

theorem RowsHold.insert (h : RowsHold P t) {k : K} {v : V} (hv : P k v) : RowsHold P (t.insert k v) := by
  intro k' v' hget
  rw [get_insert] at hget
  split_ifs at hget with hk
  · cases hget
    exact hk ▸ hv
  · exact h k' v' hget

theorem RowsHold.remove (h : RowsHold P t) (k : K) : RowsHold P (t.remove k) := by
  intro k' v' hget
  rw [get_remove] at hget
  split_ifs at hget
  exact h k' v' hget

theorem RowsHold.retain (h : RowsHold P t) (keep : K × V → Bool) : RowsHold P (t.retain keep) :=
  fun k v hget => h k v (get_retain.mp hget).1

end RowsHold

/-! ## How many rows there are -/

theorem length_insert_le (t : Table K V) (k : K) (v : V) : (t.insert k v).rows.length ≤ t.rows.length + 1 := by
  show (insertRow k v t.rows).length ≤ _
  induction t.rows with
  | nil => exact le_rfl
  | cons r rest ih =>
      rw [insertRow]
      split_ifs
      · exact Nat.succ_le_succ ih
      · exact Nat.le_succ _
      · exact le_rfl

theorem length_remove_le (t : Table K V) (k : K) : (t.remove k).rows.length ≤ t.rows.length :=
  List.length_filter_le _ _

theorem length_remove_lt {t : Table K V} {row : K × V} (h : row ∈ t.rows) :
    (t.remove row.1).rows.length < t.rows.length :=
  List.length_filter_lt_length_iff_exists.mpr ⟨row, h, by simp⟩

theorem length_retain_le (t : Table K V) (keep : K × V → Bool) : (t.retain keep).rows.length ≤ t.rows.length :=
  List.length_filter_le _ _

end Table

end Lib
