import HyperionVault.Lib.Table
import Mathlib.Data.List.Range

/-!
# Tables whose keys are a segment

A log keeps its rows under consecutive numbers: it grows at its end, and loses rows at its end or at its
beginning.

* `Table.Segment first next` : the keys are the numbers from `first` up to `next`;
* `get_insertAll_range` : rows written at the end;
* `get_removeWhere` : a loop that removes the keys with a property;
* `Segment.removeFrom`, `Segment.removeThrough` : a log cut at its end and at its beginning;
* `rows_removeWhere`, `rows_insertAll_of_lt` : the rows that such loops leave;
* `Segment.keys_eq`, `Segment.getLast?_rows` : the keys of a segment in their order, and its last row.
-/

namespace Lib.Table

/-- The table without the rows whose keys have the property. -/
def removeWhere {K V : Type} [LinearOrder K] (t : Table K V) (P : K → Bool) : Table K V := t.removeAll (t.keys.filter P)

theorem get_removeWhere {K V : Type} [LinearOrder K] (t : Table K V) (P : K → Bool) (k : K) :
    (t.removeWhere P).get k = if P k = true then none else t.get k := by
  rw [removeWhere, get_removeAll]
  by_cases hk : k ∈ t.keys
  · simp only [List.mem_filter, hk, true_and]
  · have hnone : t.get k = none := by
      rw [mem_keys, Bool.not_eq_true, Option.isSome_eq_false_iff, Option.isNone_iff_eq_none] at hk
      exact hk
    rw [if_neg fun hmem => hk (List.mem_of_mem_filter hmem), hnone, ite_self]

/-- The rows that are left without those which have the property. -/
theorem rows_removeAll_filter {K V : Type} [LinearOrder K] (t : Table K V) (P : K × V → Bool) :
    (t.removeAll ((t.rows.filter P).map Prod.fst)).rows = t.rows.filter fun row => !P row := by
  refine rows_ext (t.removeAll _).sorted (t.sorted.filter _) fun row => ?_
  have hkey : row ∈ t.rows → (row.1 ∈ (t.rows.filter P).map Prod.fst ↔ P row = true) := by
    intro hrow
    refine ⟨fun hmem => ?_, fun hP => List.mem_map_of_mem (List.mem_filter.mpr ⟨hrow, hP⟩)⟩
    obtain ⟨row', hrow', hfst⟩ := List.mem_map.mp hmem
    obtain ⟨hmem', hP⟩ := List.mem_filter.mp hrow'
    have hget : t.get row.1 = some row'.2 := hfst ▸ mem_rows.mp hmem'
    have hsnd : row'.2 = row.2 := Option.some.inj (hget.symm.trans (mem_rows.mp hrow))
    rwa [← Prod.ext hfst hsnd]
  have hget : row ∈ (t.removeAll ((t.rows.filter P).map Prod.fst)).rows ↔
      row.1 ∉ (t.rows.filter P).map Prod.fst ∧ row ∈ t.rows := by
    rw [show row = (row.1, row.2) from rfl, mem_rows, mem_rows, get_removeAll]
    split_ifs with hmem
    · exact iff_of_false nofun fun h => h.1 hmem
    · exact ⟨fun h => ⟨hmem, h⟩, fun h => h.2⟩
  rw [hget, List.mem_filter, and_comm]
  refine and_congr_right fun hrow => ?_
  rw [hkey hrow, Bool.not_eq_true, Bool.not_eq_true']

theorem rows_removeWhere {K V : Type} [LinearOrder K] (t : Table K V) (P : K → Bool) :
    (t.removeWhere P).rows = t.rows.filter fun row => !P row.1 := by
  rw [removeWhere, keys, List.filter_map]
  exact rows_removeAll_filter t fun row => P row.1

/-- Rows that are written in order behind the last one. -/
theorem rows_insertAll_of_lt {K V : Type} [LinearOrder K] (rows : List (K × V)) (t : Table K V)
    (hsorted : rows.Pairwise fun a b => a.1 < b.1) (habove : ∀ row ∈ t.rows, ∀ new ∈ rows, row.1 < new.1) :
    (t.insertAll rows).rows = t.rows ++ rows := by
  have hend (k : K) (v : V) (l : List (K × V)) (hl : ∀ row ∈ l, row.1 < k) : insertRow k v l = l ++ [(k, v)] := by
    induction l with
    | nil => rfl
    | cons row l ih =>
        rw [insertRow, if_pos (hl row List.mem_cons_self), ih fun r hr => hl r (List.mem_cons_of_mem _ hr)]
        rfl
  induction rows generalizing t with
  | nil => exact (List.append_nil _).symm
  | cons new rest ih =>
      obtain ⟨hnew, hrest⟩ := List.pairwise_cons.mp hsorted
      have hrow : (t.insert new.1 new.2).rows = t.rows ++ [new] :=
        hend new.1 new.2 t.rows fun row hrow => habove row hrow new List.mem_cons_self
      have hstep : t.insertAll (new :: rest) = (t.insert new.1 new.2).insertAll rest := rfl
      rw [hstep, ih _ hrest, hrow, List.append_assoc]
      · rfl
      · intro row hmem later hlater
        rw [hrow, List.mem_append] at hmem
        rcases hmem with hmem | hmem
        · exact habove row hmem later (List.mem_cons_of_mem _ hlater)
        · rw [List.mem_singleton.mp hmem]
          exact hnew later hlater

section Segments
variable {V : Type} {t : Table Nat V} {first next : Nat}

def Segment (t : Table Nat V) (first next : Nat) : Prop := ∀ i, (t.get i).isSome ↔ first ≤ i ∧ i < next

theorem segment_empty (n : Nat) : (empty : Table Nat V).Segment n n := by
  intro i
  simp

theorem Segment.congr (h : t.Segment first next) {first' next' : Nat}
    (hsame : ∀ i, first ≤ i ∧ i < next ↔ first' ≤ i ∧ i < next') : t.Segment first' next' :=
  fun i => (h i).trans (hsame i)

theorem Segment.get_eq_none (h : t.Segment first next) {i : Nat} (hi : next ≤ i) : t.get i = none := by
  rw [← Option.isNone_iff_eq_none, ← Option.isSome_eq_false_iff, ← Bool.not_eq_true, h i]
  omega

/-! ## Growing at the end -/

/-- Rows written one after the other behind the last one. -/
theorem get_insertAll_range {rows : List (Nat × V)} (hrows : rows.map Prod.fst = List.range' next rows.length)
    (hnone : ∀ i, next ≤ i → t.get i = none) (i : Nat) :
    (t.insertAll rows).get i = if next ≤ i then rows[i - next]?.map Prod.snd else t.get i := by
  induction rows generalizing t next with
  | nil =>
      split_ifs with hi
      · exact hnone i hi
      · rfl
  | cons row rest ih =>
      obtain ⟨k, v⟩ := row
      rw [List.map_cons, List.length_cons, List.range'_succ, List.cons.injEq] at hrows
      obtain ⟨rfl, hrest⟩ := hrows
      have hnone' : ∀ j, k + 1 ≤ j → (t.insert k v).get j = none := by
        intro j hj
        rw [get_insert_of_ne _ _ (by omega)]
        exact hnone j (by omega)
      have hstep : (t.insertAll ((k, v) :: rest)).get i = ((t.insert k v).insertAll rest).get i := rfl
      rw [hstep, ih hrest hnone']
      rcases lt_trichotomy i k with hi | rfl | hi
      · rw [if_neg (by omega), if_neg (by omega), get_insert_of_ne _ _ (by omega)]
      · rw [if_neg (by omega), if_pos (le_refl _), get_insert_self, Nat.sub_self]
        rfl
      · rw [if_pos (by omega), if_pos (by omega), show i - k = i - (k + 1) + 1 by omega, List.getElem?_cons_succ]

theorem Segment.insertAll (h : t.Segment first next) (hle : first ≤ next) {rows : List (Nat × V)}
    (hrows : rows.map Prod.fst = List.range' next rows.length) :
    (t.insertAll rows).Segment first (next + rows.length) := by
  intro i
  rw [get_insertAll_range hrows fun j hj => h.get_eq_none hj]
  split_ifs with hi
  · rw [Option.isSome_map, isSome_getElem?]
    omega
  · rw [h i]
    omega

/-! ## Cutting -/

theorem Segment.removeFrom (h : t.Segment first next) (k : Nat) :
    (t.removeWhere (k ≤ ·)).Segment first (min next k) := by
  intro i
  rw [get_removeWhere]
  by_cases hi : k ≤ i
  · simp only [hi, decide_true, if_true, Option.isSome_none, Bool.false_eq_true, false_iff]
    omega
  · simp only [hi, decide_false, Bool.false_eq_true, if_false, h i]
    omega

theorem Segment.removeThrough (h : t.Segment first next) (k : Nat) :
    (t.removeWhere (· ≤ k)).Segment (max first (k + 1)) next := by
  intro i
  rw [get_removeWhere]
  by_cases hi : i ≤ k
  · simp only [hi, decide_true, if_true, Option.isSome_none, Bool.false_eq_true, false_iff]
    omega
  · simp only [hi, decide_false, Bool.false_eq_true, if_false, h i]
    omega

/-! ## The keys -/

theorem keys_sorted {K : Type} [LinearOrder K] (t : Table K V) : t.keys.Pairwise (· < ·) :=
  List.pairwise_map.mpr t.sorted

/-- The last element of a sorted list is the greatest. -/
theorem le_of_getLast? {K : Type} [LinearOrder K] {l : List K} (hl : l.Pairwise (· < ·)) {last k : K}
    (hlast : l.getLast? = some last) (hk : k ∈ l) : k ≤ last := by
  obtain ⟨init, rfl⟩ := List.getLast?_eq_some_iff.mp hlast
  rcases List.mem_append.mp hk with hinit | hsingle
  · exact ((List.pairwise_append.mp hl).2.2 k hinit last (List.mem_singleton_self last)).le
  · exact (List.mem_singleton.mp hsingle).le

theorem Segment.keys_eq (h : t.Segment first next) : t.keys = List.range' first (next - first) := by
  have hnodup {l : List Nat} (hl : l.Pairwise (· < ·)) : l.Nodup := hl.imp fun hlt => hlt.ne
  refine List.Perm.eq_of_pairwise (fun a b _ _ hab hba => absurd hab hba.asymm) t.keys_sorted List.pairwise_lt_range'
    ((List.perm_ext_iff_of_nodup (hnodup t.keys_sorted) (hnodup List.pairwise_lt_range')).mpr fun i => ?_)
  rw [mem_keys, h i, List.mem_range'_1]
  omega

/-- The number after the last key. -/
theorem Segment.getLast?_keys (h : t.Segment first next) :
    t.keys.getLast? = if first < next then some (next - 1) else none := by
  rw [h.keys_eq, List.getLast?_range']
  by_cases hlt : first < next
  · rw [if_neg (by omega), if_pos hlt]
    congr 1
    omega
  · rw [if_pos (by omega), if_neg hlt]

theorem Segment.head?_keys (h : t.Segment first next) : t.keys.head? = if first < next then some first else none := by
  rw [h.keys_eq, List.head?_range']
  by_cases hlt : first < next
  · rw [if_neg (by omega), if_pos hlt]
  · rw [if_pos (by omega), if_neg hlt]

theorem Segment.getLast?_rows (h : t.Segment first next) :
    t.rows.getLast? = if first < next then (t.get (next - 1)).map (next - 1, ·) else none := by
  have hkey : t.rows.getLast?.map Prod.fst = if first < next then some (next - 1) else none := by
    rw [← List.getLast?_map]
    exact h.getLast?_keys
  cases hlast : t.rows.getLast? with
  | none =>
      rw [hlast, Option.map_none] at hkey
      split_ifs at hkey ⊢
      rfl
  | some row =>
      obtain ⟨index, value⟩ := row
      rw [hlast, Option.map_some] at hkey
      split_ifs at hkey ⊢
      obtain rfl : index = next - 1 := Option.some.inj hkey
      rw [mem_rows.mp (List.mem_of_getLast? hlast)]
      rfl

end Segments

end Lib.Table
