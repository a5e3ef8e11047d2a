import Mathlib.Algebra.Group.Int.Defs
import Mathlib.Algebra.Group.Nat.Defs
import Mathlib.Order.Lattice

/-!
# Windows of events

Events come one after the other, event `n` at the time `time n`. A window begins with an event and takes the events
that come less than `width` after it; the next event begins a window of its own. A burst can fall into two windows,
and then one of them has got half of it.

* `Window.start`, `Window.count` : the first event of the window of an event, and the number of its events so far;
* `Window.exists_full` : of `2 * size - 1` events within `width`, one finds `size` events in its window, and it is
  not among the first `size - 1`;
* `lastBelow` : the last event before a given one that has a property.
-/

namespace Lib

namespace Window
variable (time : Nat → Int) (width : Int)

def start : Nat → Nat
  | 0 => 0
  | n + 1 => if width ≤ time (n + 1) - time (start n) then n + 1 else start n

def count (n : Nat) : Nat := n - start time width n + 1

theorem start_le (n : Nat) : start time width n ≤ n := by
  induction n with
  | zero => exact Nat.le_refl _
  | succ n ih =>
      rw [start]
      split_ifs
      · exact Nat.le_refl _
      · exact Nat.le_succ_of_le ih

theorem count_succ (n : Nat) : count time width (n + 1) =
    if width ≤ time (n + 1) - time (start time width n) then 1 else count time width n + 1 := by
  have hle := start_le time width n
  unfold count
  rw [start]
  split_ifs
  · rw [Nat.sub_self]
  · omega

variable {width}

/-- The window of an event began less than `width` before it. -/
theorem sub_start_lt (hwidth : 0 < width) (n : Nat) : time n - time (start time width n) < width := by
  cases n with
  | zero => rwa [start, Int.sub_self]
  | succ n =>
      rw [start]
      split_ifs with hrestart
      · rwa [Int.sub_self]
      · exact Int.not_le.mp hrestart

variable {time}

/-- A window that does not begin with the first event begins `width` after the one before it. -/
theorem restart_of_start_eq {n m : Nat} (h : start time width n = m + 1) :
    width ≤ time (m + 1) - time (start time width m) := by
  induction n with
  | zero => cases h
  | succ n ih =>
      rw [start] at h
      split_ifs at h with hrestart
      · obtain rfl : n = m := Nat.succ.inj h
        exact hrestart
      · exact ih h

theorem count_of_forall_lt {n : Nat} (h : ∀ k ≤ n, time k - time 0 < width) : count time width n = n + 1 := by
  have hstart : start time width n = 0 := by
    induction n with
    | zero => rfl
    | succ n ih =>
        have hn := ih fun k hk => h k (Nat.le_succ_of_le hk)
        rw [start, hn, if_neg]
        exact Int.not_le.mpr (h (n + 1) (Nat.le_refl _))
  rw [count, hstart, Nat.sub_zero]

/-- Either the last window has most of the burst, or the one before it has begun before the burst and has the rest. -/
theorem exists_full {size : Nat} (first n : Nat) (hsize : 0 < size) (hmono : ∀ a b, a ≤ b → b ≤ n → time a ≤ time b)
    (hburst : first + (2 * size - 1) = n + 1) (hspan : time n - time first < width) :
    ∃ l, first + (size - 1) ≤ l ∧ l ≤ n ∧ size ≤ count time width l := by
  have hle := start_le time width n
  by_cases hlast : start time width n ≤ first + (size - 1)
  · refine ⟨n, by omega, Nat.le_refl _, ?_⟩
    unfold count
    omega
  · obtain ⟨m, hm⟩ : ∃ m, start time width n = m + 1 := Nat.exists_eq_succ_of_ne_zero (by omega)
    have hrestart := restart_of_start_eq hm
    have hstart := start_le time width m
    have hbefore : start time width m < first := by
      by_contra hnot
      have hfirst := hmono first (start time width m) (by omega) (by omega)
      have hlater := hmono (m + 1) n (by omega) (Nat.le_refl _)
      omega
    refine ⟨m, by omega, by omega, ?_⟩
    unfold count
    omega

end Window

/-! ## The last event of a kind -/

variable {p : Nat → Bool}

/-- The last number below `n` with the property. -/
def lastBelow (p : Nat → Bool) : Nat → Option Nat
  | 0 => none
  | n + 1 => if p n then some n else lastBelow p n

theorem lastBelow_eq_some {n l : Nat} (h : lastBelow p n = some l) : l < n ∧ p l = true := by
  induction n with
  | zero => cases h
  | succ n ih =>
      rw [lastBelow] at h
      split_ifs at h with hp
      · cases h
        exact ⟨Nat.lt_succ_self _, hp⟩
      · exact ⟨Nat.lt_succ_of_lt (ih h).1, (ih h).2⟩

theorem le_lastBelow {n l : Nat} (hl : l < n) (hp : p l = true) : ∃ l', lastBelow p n = some l' ∧ l ≤ l' := by
  induction n with
  | zero => cases hl
  | succ n ih =>
      rw [lastBelow]
      split_ifs with hpn
      · exact ⟨n, rfl, Nat.lt_succ_iff.mp hl⟩
      · refine ih (Nat.lt_of_le_of_ne (Nat.lt_succ_iff.mp hl) ?_)
        rintro rfl
        exact hpn hp

end Lib
