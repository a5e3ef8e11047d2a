import HyperionVault.Lib.Run
import HyperionVault.Lib.Window
import HyperionVault.Store.Json
import HyperionVault.Store.Rows
import Mathlib.Data.List.GetD

/-!
# Counting failures

`RecordAuthFailure` counts the failures of a key in windows: the first failure after the end of a window begins the
next one. The count is a `u32` and wraps in a release build.

* `failureStep`, `foundLockout` : one more failure of a key, and the record in which it is counted;
* `countedRecord`, `lockout_after` : the record of the key after any failures;
* `LockoutBounds` : what a burst of failures leads to, and what a lock comes from;
* `CountFits`, `lockout_bounds` : the bounds hold as long as the count does not wrap.
-/

namespace HyperionVault
open Lib

/-! ## The record after a run of failures -/

section Counting
variable (max : UInt32) (windowSecs lockoutSecs : Int64) (times : List Int64)

/-- The time of the failure number `n`. -/
def failedAt (n : Nat) : Int64 := times.getD n 0

/-- The failure that began the window of the failure number `n`. -/
def windowStartAt (n : Nat) : Nat := Window.start (fun i => (failedAt times i).toInt) windowSecs.toInt n

/-- The number of failures in that window so far. -/
def failuresAt (n : Nat) : Nat := Window.count (fun i => (failedAt times i).toInt) windowSecs.toInt n

/-- The count has reached the maximum, as far as 32 bits show it. -/
def locksAt (n : Nat) : Bool := max ≤ UInt32.ofNat (failuresAt windowSecs times n)

def countedRecord (n : Nat) : LockoutRecord where
  failures := UInt32.ofNat (failuresAt windowSecs times n)
  windowStart := failedAt times (windowStartAt windowSecs times n)
  lockedUntil := (lastBelow (locksAt max windowSecs times) (n + 1)).map fun l => failedAt times l + lockoutSecs

/-- The times and the settings stay within 64 bits. -/
structure TimesFit : Prop where
  sub : ∀ a ∈ times, ∀ b ∈ times, b.toInt - a.toInt < 2 ^ 63
  add : ∀ a ∈ times, a.toInt + lockoutSecs.toInt < 2 ^ 63

end Counting

section Fail
variable {max : UInt32} {windowSecs lockoutSecs : Int64} {times : List Int64}

/-- A failure counts in a new window or in the one there is, and locks where the count has reached the maximum. -/
theorem fail_eq (record : LockoutRecord) (now : Int64) : record.fail now max windowSecs lockoutSecs =
    ⟨(if windowSecs ≤ now - record.windowStart then 0 else record.failures) + 1,
      if windowSecs ≤ now - record.windowStart then now else record.windowStart,
      if max ≤ (if windowSecs ≤ now - record.windowStart then 0 else record.failures) + 1 then
        some (now + lockoutSecs) else record.lockedUntil⟩ := by
  unfold LockoutRecord.fail
  by_cases hrestart : windowSecs ≤ now - record.windowStart
  · simp only [hrestart, if_true]
    split_ifs <;> rfl
  · simp only [hrestart, if_false]
    split_ifs <;> rfl

theorem countedRecord_zero : countedRecord max windowSecs lockoutSecs times 0 =
    LockoutRecord.fail ⟨0, failedAt times 0, none⟩ (failedAt times 0) max windowSecs lockoutSecs := by
  have hlast : (lastBelow (locksAt max windowSecs times) 1).map (fun l => failedAt times l + lockoutSecs) =
      if max ≤ 1 then some (failedAt times 0 + lockoutSecs) else none := by
    change (if decide (max ≤ 1) then some 0 else none).map _ = _
    simp only [decide_eq_true_eq]
    split_ifs <;> rfl
  have hfail (now : Int64) : LockoutRecord.fail ⟨0, now, none⟩ now max windowSecs lockoutSecs =
      ⟨1, now, if max ≤ 1 then some (now + lockoutSecs) else none⟩ := by
    rw [fail_eq, ite_self, ite_self]
    rfl
  rw [hfail]
  unfold countedRecord
  rw [hlast]
  rfl

theorem countedRecord_lockedUntil (n : Nat) : countedRecord max windowSecs lockoutSecs times (n + 1) =
    ⟨UInt32.ofNat (failuresAt windowSecs times (n + 1)), failedAt times (windowStartAt windowSecs times (n + 1)),
      if max ≤ UInt32.ofNat (failuresAt windowSecs times (n + 1)) then some (failedAt times (n + 1) + lockoutSecs)
      else (countedRecord max windowSecs lockoutSecs times n).lockedUntil⟩ := by
  unfold countedRecord
  rw [lastBelow, locksAt]
  simp only [decide_eq_true_eq]
  split_ifs <;> rfl

/-- Without overflow, a failure changes the record as the next count says. -/
theorem countedRecord_succ (n : Nat)
    (hsub : (failedAt times (n + 1) - failedAt times (windowStartAt windowSecs times n)).toInt =
      (failedAt times (n + 1)).toInt - (failedAt times (windowStartAt windowSecs times n)).toInt) :
    countedRecord max windowSecs lockoutSecs times (n + 1) =
      (countedRecord max windowSecs lockoutSecs times n).fail (failedAt times (n + 1)) max windowSecs lockoutSecs := by
  have hrestart : windowSecs ≤ failedAt times (n + 1) - (countedRecord max windowSecs lockoutSecs times n).windowStart ↔
      windowSecs.toInt ≤
        (failedAt times (n + 1)).toInt - (failedAt times (windowStartAt windowSecs times n)).toInt := by
    rw [Int64.le_iff_toInt_le]
    exact iff_of_eq (congrArg (windowSecs.toInt ≤ ·) hsub)
  have hcount : failuresAt windowSecs times (n + 1) = if windowSecs.toInt ≤
      (failedAt times (n + 1)).toInt - (failedAt times (windowStartAt windowSecs times n)).toInt then 1
      else failuresAt windowSecs times n + 1 := Window.count_succ _ _ n
  have hstart : windowStartAt windowSecs times (n + 1) = if windowSecs.toInt ≤
      (failedAt times (n + 1)).toInt - (failedAt times (windowStartAt windowSecs times n)).toInt then n + 1
      else windowStartAt windowSecs times n := rfl
  rw [countedRecord_lockedUntil, fail_eq]
  by_cases hnew : windowSecs.toInt ≤
      (failedAt times (n + 1)).toInt - (failedAt times (windowStartAt windowSecs times n)).toInt
  · rw [hcount, hstart, if_pos hnew, if_pos hnew, if_pos (hrestart.mpr hnew), if_pos (hrestart.mpr hnew)]
    rfl
  · rw [hcount, hstart, if_neg hnew, if_neg hnew, if_neg (mt hrestart.mp hnew), if_neg (mt hrestart.mp hnew),
      UInt32.ofNat_add]
    rfl

theorem TimesFit.toInt_sub (h : TimesFit lockoutSecs times) {a b : Int64} (ha : a ∈ times) (hb : b ∈ times)
    (hab : a ≤ b) : (b - a).toInt = b.toInt - a.toInt := by
  have hlt := h.sub a ha b hb
  have hle := Int64.le_iff_toInt_le.mp hab
  rw [Int64.toInt_sub, Int.bmod_eq_of_le] <;> omega

theorem TimesFit.toInt_add (h : TimesFit lockoutSecs times) {a : Int64} (ha : a ∈ times) (hlockout : 0 ≤ lockoutSecs) :
    (a + lockoutSecs).toInt = a.toInt + lockoutSecs.toInt := by
  have hle : 0 ≤ lockoutSecs.toInt := Int64.le_iff_toInt_le.mp hlockout
  exact (toInt_add_eq_iff hle).mpr (h.add a ha)

theorem failedAt_mem {n : Nat} (hn : n < times.length) : failedAt times n ∈ times := by
  unfold failedAt
  rw [List.getD_eq_getElem _ _ hn]
  exact List.getElem_mem hn

theorem failedAt_le (hsorted : times.Pairwise (· ≤ ·)) {a b : Nat} (hab : a ≤ b) (hb : b < times.length) :
    failedAt times a ≤ failedAt times b := by
  unfold failedAt
  rw [List.getD_eq_getElem _ _ hb, List.getD_eq_getElem _ _ (Nat.lt_of_le_of_lt hab hb)]
  rcases Nat.eq_or_lt_of_le hab with rfl | hlt
  · exact le_refl _
  · exact List.pairwise_iff_getElem.mp hsorted a b _ hb hlt

end Fail

/-! ## The tables -/

section Tables
variable (C : Codec) (nodeId : Nat) (key : String) (max : UInt32) (windowSecs lockoutSecs : Int64)

/-- One more failure of the key. -/
def failureStep (t : Tables) (now : Int64) : Tables :=
  storeStep C nodeId t (.recordAuthFailure key now max windowSecs lockoutSecs)

/-- The key is locked until then. -/
def lockedUntil (t : Tables) : Option Int64 := (recordAt C.lockout t.lockouts key).bind LockoutRecord.lockedUntil

/-- The record in which a failure of the key is counted. -/
def foundLockout (now : Int64) (t : Tables) : StoreResult LockoutRecord :=
  match t.lockouts.get key with
  | some value => decodeRow C.lockout value
  | none => .ok { failures := 0, windowStart := now, lockedUntil := none }

variable {C nodeId key max windowSecs lockoutSecs} {t : Tables}

theorem foundLockout_new {now : Int64} (hnew : t.lockouts.get key = none) :
    foundLockout C key now t = .ok ⟨0, now, none⟩ := by
  unfold foundLockout
  rw [hnew]

theorem foundLockout_of_recordAt {now : Int64} {record : LockoutRecord}
    (hrecord : recordAt C.lockout t.lockouts key = some record) : foundLockout C key now t = .ok record := by
  obtain ⟨bytes, hget, hdec⟩ := get_of_recordAt hrecord
  simp only [foundLockout, hget, decodeRow, hdec]

theorem recordAuthFailure_eq (now : Int64) : recordAuthFailure C key now max windowSecs lockoutSecs t =
    match foundLockout C key now t with
    | .error e => (.error e, t)
    | .ok record => (.ok (), { t with
        lockouts := t.lockouts.insert key (C.lockout.encode (record.fail now max windowSecs lockoutSecs)) }) := rfl

theorem recordAuthFailure_found {now : Int64} {record : LockoutRecord}
    (hfound : foundLockout C key now t = .ok record) :
    recordAuthFailure C key now max windowSecs lockoutSecs t = (.ok (), { t with
      lockouts := t.lockouts.insert key (C.lockout.encode (record.fail now max windowSecs lockoutSecs)) }) := by
  rw [recordAuthFailure_eq, hfound]

theorem recordAuthFailure_unreadable {now : Int64} {e : StoreError} (hfound : foundLockout C key now t = .error e) :
    recordAuthFailure C key now max windowSecs lockoutSecs t = (.error e, t) := by
  rw [recordAuthFailure_eq, hfound]

theorem failureStep_found {now : Int64} {record : LockoutRecord} (hfound : foundLockout C key now t = .ok record) :
    recordAt C.lockout (failureStep C nodeId key max windowSecs lockoutSecs t now).lockouts key =
      some (record.fail now max windowSecs lockoutSecs) := by
  have happly : applyCommand C nodeId (.recordAuthFailure key now max windowSecs lockoutSecs) t = _ :=
    recordAuthFailure_found hfound
  rw [failureStep, storeStep, RedbStore.apply, happly]
  exact recordAt_insert_self _ _

variable {times : List Int64}

theorem run_take_succ (t : Tables) {n : Nat} (hn : n < times.length) :
    run (failureStep C nodeId key max windowSecs lockoutSecs) t (times.take (n + 1)) =
      failureStep C nodeId key max windowSecs lockoutSecs
        (run (failureStep C nodeId key max windowSecs lockoutSecs) t (times.take n)) (failedAt times n) := by
  rw [List.take_succ_eq_append_getElem hn, run_append, failedAt, List.getD_eq_getElem _ _ hn]
  rfl

/-- The record of the key after the failure number `n`. -/
theorem lockout_after (hnew : t.lockouts.get key = none) (hsorted : times.Pairwise (· ≤ ·))
    (hfit : TimesFit lockoutSecs times) {n : Nat} (hn : n < times.length) :
    recordAt C.lockout (run (failureStep C nodeId key max windowSecs lockoutSecs) t (times.take (n + 1))).lockouts key =
      some (countedRecord max windowSecs lockoutSecs times n) := by
  induction n with
  | zero =>
      rw [run_take_succ t hn, countedRecord_zero]
      exact failureStep_found (foundLockout_new hnew)
  | succ n ih =>
      have hstart : windowStartAt windowSecs times n ≤ n := Window.start_le _ _ n
      rw [run_take_succ t hn, failureStep_found (foundLockout_of_recordAt (ih (Nat.lt_of_succ_lt hn))), countedRecord_succ]
      exact hfit.toInt_sub (failedAt_mem (by omega)) (failedAt_mem hn) (failedAt_le hsorted (by omega) hn)

theorem lockedUntil_after (hnew : t.lockouts.get key = none) (hsorted : times.Pairwise (· ≤ ·))
    (hfit : TimesFit lockoutSecs times) {k : Nat} (hk : k ≤ times.length) :
    lockedUntil C key (run (failureStep C nodeId key max windowSecs lockoutSecs) t (times.take k)) =
      (lastBelow (locksAt max windowSecs times) k).map fun l => failedAt times l + lockoutSecs := by
  unfold lockedUntil
  cases k with
  | zero =>
      rw [List.take_zero, run_nil, recordAt, hnew]
      rfl
  | succ n =>
      rw [lockout_after hnew hsorted hfit hk]
      rfl

end Tables

/-! ## Bursts and locks -/

section Bounds
variable (C : Codec) (nodeId : Nat) (key : String) (max : UInt32) (windowSecs lockoutSecs : Int64) (t : Tables)
  (times : List Int64)

/-- The bounds on the locks of a key without a record that fails at these times. -/
structure LockoutBounds : Prop where
  /-- Failures number `j 0`, `j 1`, ...: once `2 * max - 1` of them come within a window, the key is locked. -/
  burst : ∀ j : Nat → Nat, StrictMono j → j (2 * max.toNat - 2) < times.length →
    (failedAt times (j (2 * max.toNat - 2))).toInt - (failedAt times (j 0)).toInt < windowSecs.toInt →
    ∃ u, lockedUntil C key (run (failureStep C nodeId key max windowSecs lockoutSecs) t
        (times.take (j (2 * max.toNat - 2) + 1))) = some u ∧
      (failedAt times (j (max.toNat - 1))).toInt + lockoutSecs.toInt ≤ u.toInt
  /-- A lock comes from a failure that is the last of `max` within a window. -/
  counted : ∀ k ≤ times.length, ∀ u,
    lockedUntil C key (run (failureStep C nodeId key max windowSecs lockoutSecs) t (times.take k)) = some u →
    ∃ last < k, u.toInt = (failedAt times last).toInt + lockoutSecs.toInt ∧
      ∃ first, first + max.toNat ≤ last + 1 ∧
        (failedAt times last).toInt - (failedAt times first).toInt < windowSecs.toInt
  kept : ∀ k k', k ≤ k' → k' ≤ times.length → ∀ u,
    lockedUntil C key (run (failureStep C nodeId key max windowSecs lockoutSecs) t (times.take k)) = some u →
    ∃ u', lockedUntil C key (run (failureStep C nodeId key max windowSecs lockoutSecs) t (times.take k')) = some u' ∧
      u ≤ u'

/-- The failure begins a window, or its number in the window fits into 32 bits. -/
def CountFits (t : Tables) (now : Int64) : Prop :=
  ∀ record, recordAt C.lockout t.lockouts key = some record →
    windowSecs ≤ now - record.windowStart ∨ record.failures.toNat + 1 < 2 ^ 32

variable {C nodeId key max windowSecs lockoutSecs t times}

theorem toNat_le_of_locksAt {n : Nat} (h : locksAt max windowSecs times n = true) :
    max.toNat ≤ failuresAt windowSecs times n := by
  have hle := UInt32.le_iff_toNat_le.mp (of_decide_eq_true h)
  rw [UInt32.toNat_ofNat'] at hle
  exact hle.trans (Nat.mod_le _ _)

theorem locksAt_of_le {n : Nat} (hfits : failuresAt windowSecs times n < 2 ^ 32)
    (h : max.toNat ≤ failuresAt windowSecs times n) : locksAt max windowSecs times n = true :=
  decide_eq_true ((le_ofNat_iff hfits).mpr h)

/-- Where every step keeps the count within 32 bits, it is the number of failures. -/
theorem failuresAt_lt (hnew : t.lockouts.get key = none) (hsorted : times.Pairwise (· ≤ ·))
    (hfit : TimesFit lockoutSecs times)
    (hcount : AllSteps (failureStep C nodeId key max windowSecs lockoutSecs) (CountFits C key windowSecs) t times)
    {n : Nat} (hn : n < times.length) : failuresAt windowSecs times n < 2 ^ 32 := by
  induction n with
  | zero => exact Nat.one_lt_two_pow (by decide)
  | succ n ih =>
      have hbefore := ih (Nat.lt_of_succ_lt hn)
      have hstart : windowStartAt windowSecs times n ≤ n := Window.start_le _ _ n
      have hsub := hfit.toInt_sub (failedAt_mem (n := windowStartAt windowSecs times n) (by omega)) (failedAt_mem hn)
        (failedAt_le hsorted (by omega) hn)
      have hfits := allSteps_iff_getElem.mp hcount _ hn _ (lockout_after hnew hsorted hfit (Nat.lt_of_succ_lt hn))
      rw [← List.getD_eq_getElem _ 0 hn] at hfits
      rw [failuresAt, Window.count_succ]
      split_ifs with hrestart
      · exact Nat.one_lt_two_pow (by decide)
      · rcases hfits with hwindow | hlt
        · refine absurd ?_ hrestart
          have hle := Int64.le_iff_toInt_le.mp hwindow
          exact hle.trans_eq hsub
        · change (UInt32.ofNat (failuresAt windowSecs times n)).toNat + 1 < 2 ^ 32 at hlt
          rwa [UInt32.toNat_ofNat', Nat.mod_eq_of_lt hbefore] at hlt

/-- Fewer than `2 ^ 32` failures can be counted. -/
theorem countFits_of_length_lt (hnew : t.lockouts.get key = none) (hsorted : times.Pairwise (· ≤ ·))
    (hfit : TimesFit lockoutSecs times) (hlength : times.length < 2 ^ 32) :
    AllSteps (failureStep C nodeId key max windowSecs lockoutSecs) (CountFits C key windowSecs) t times := by
  refine allSteps_iff_getElem.mpr fun n hn record hrecord => Or.inr ?_
  cases n with
  | zero =>
      rw [List.take_zero, run_nil, recordAt, hnew] at hrecord
      cases hrecord
  | succ n =>
      rw [lockout_after hnew hsorted hfit (Nat.lt_of_succ_lt hn)] at hrecord
      cases hrecord
      change (UInt32.ofNat (n - windowStartAt windowSecs times n + 1)).toNat + 1 < 2 ^ 32
      rw [UInt32.toNat_ofNat', Nat.mod_eq_of_lt (by omega)]
      omega

/-- Any `2 * max - 1` failures are at least as close as the last ones of them. -/
theorem burst_locks (hmax : 0 < max) (hsorted : times.Pairwise (· ≤ ·))
    (hfits : ∀ n < times.length, failuresAt windowSecs times n < 2 ^ 32) {j : Nat → Nat} (hj : StrictMono j)
    (hlast : j (2 * max.toNat - 2) < times.length)
    (hspan : (failedAt times (j (2 * max.toNat - 2))).toInt - (failedAt times (j 0)).toInt < windowSecs.toInt) :
    ∃ l, j (max.toNat - 1) ≤ l ∧ l ≤ j (2 * max.toNat - 2) ∧ locksAt max windowSecs times l = true := by
  have hpos : 0 < max.toNat := UInt32.lt_iff_toNat_lt.mp hmax
  have hapart (a b : Nat) (hab : a ≤ b) : j a + (b - a) ≤ j b := by
    obtain ⟨d, rfl⟩ := Nat.exists_eq_add_of_le hab
    have hadd := hj.add_le_nat d a
    rw [Nat.add_sub_cancel_left, Nat.add_comm a d]
    omega
  have hfirst := hapart 0 (2 * max.toNat - 2) (Nat.zero_le _)
  have hmiddle := hapart (max.toNat - 1) (2 * max.toNat - 2) (by omega)
  have hmono (a b : Nat) (hab : a ≤ b) (hb : b ≤ j (2 * max.toNat - 2)) :
      (failedAt times a).toInt ≤ (failedAt times b).toInt :=
    Int64.le_iff_toInt_le.mp (failedAt_le hsorted hab (by omega))
  have hle := hmono (j 0) (j (2 * max.toNat - 2) - (2 * max.toNat - 2)) (by omega) (by omega)
  obtain ⟨l, hlow, hhigh, hfull⟩ := Window.exists_full (j (2 * max.toNat - 2) - (2 * max.toNat - 2))
    (j (2 * max.toNat - 2)) hpos hmono (by omega) (Int.lt_of_le_of_lt (Int.sub_le_sub_left hle _) hspan)
  exact ⟨l, by omega, hhigh, locksAt_of_le (hfits l (by omega)) hfull⟩

end Bounds

/-- The bounds hold for all failures that the count can count. -/
theorem lockout_bounds (C : Codec) (nodeId : Nat) (key : String) (max : UInt32) (windowSecs lockoutSecs : Int64)
    (t : Tables) (times : List Int64) (hmax : 0 < max) (hwindow : 0 < windowSecs) (hlockout : 0 ≤ lockoutSecs)
    (hnew : t.lockouts.get key = none) (hsorted : times.Pairwise (· ≤ ·)) (hfit : TimesFit lockoutSecs times)
    (hcount : AllSteps (failureStep C nodeId key max windowSecs lockoutSecs) (CountFits C key windowSecs) t times) :
    LockoutBounds C nodeId key max windowSecs lockoutSecs t times where
  burst := by
    intro j hj hlast hspan
    obtain ⟨l, hlow, hhigh, hlocks⟩ := burst_locks hmax hsorted
      (fun n hn => failuresAt_lt hnew hsorted hfit hcount hn) hj hlast hspan
    obtain ⟨l', hl', hle⟩ := le_lastBelow (Nat.lt_succ_of_le hhigh) hlocks
    have hbound := (lastBelow_eq_some hl').1
    rw [lockedUntil_after hnew hsorted hfit hlast, hl']
    refine ⟨_, rfl, ?_⟩
    rw [hfit.toInt_add (failedAt_mem (by omega)) hlockout]
    have htimes := Int64.le_iff_toInt_le.mp
      (failedAt_le hsorted (a := j (max.toNat - 1)) (b := l') (by omega) (by omega))
    omega
  counted := by
    intro k hk u hu
    rw [lockedUntil_after hnew hsorted hfit hk] at hu
    obtain ⟨l, hl, rfl⟩ := Option.map_eq_some_iff.mp hu
    obtain ⟨hlt, hlocks⟩ := lastBelow_eq_some hl
    refine ⟨l, hlt, hfit.toInt_add (failedAt_mem (by omega)) hlockout, windowStartAt windowSecs times l, ?_, ?_⟩
    · have hstart : windowStartAt windowSecs times l ≤ l := Window.start_le _ _ l
      have hfull : max.toNat ≤ l - windowStartAt windowSecs times l + 1 := toNat_le_of_locksAt hlocks
      omega
    · exact Window.sub_start_lt (fun i => (failedAt times i).toInt) (Int64.lt_iff_toInt_lt.mp hwindow) l
  kept := by
    intro k k' hkk' hk' u hu
    rw [lockedUntil_after hnew hsorted hfit (hkk'.trans hk')] at hu
    obtain ⟨l, hl, rfl⟩ := Option.map_eq_some_iff.mp hu
    obtain ⟨hlt, hlocks⟩ := lastBelow_eq_some hl
    obtain ⟨l', hl', hle⟩ := le_lastBelow (Nat.lt_of_lt_of_le hlt hkk') hlocks
    have hlt' := (lastBelow_eq_some hl').1
    rw [lockedUntil_after hnew hsorted hfit hk', hl']
    refine ⟨_, rfl, Int64.le_iff_toInt_le.mpr ?_⟩
    rw [hfit.toInt_add (failedAt_mem (by omega)) hlockout, hfit.toInt_add (failedAt_mem (by omega)) hlockout]
    have htimes := Int64.le_iff_toInt_le.mp (failedAt_le hsorted hle (by omega))
    omega

theorem three_failures_lock : LockoutBounds jsonCodec 1 "10.0.0.5" 2 300 900 .empty [1000, 1001, 1001] :=
  have hsorted : [1000, 1001, (1001 : Int64)].Pairwise (· ≤ ·) := by decide
  have hfit : TimesFit 900 [1000, 1001, 1001] := by
    have htimes {a : Int64} (ha : a ∈ [1000, 1001, (1001 : Int64)]) : a = 1000 ∨ a = 1001 := by simpa using ha
    constructor
    · intro a ha b hb
      rcases htimes ha with rfl | rfl <;> rcases htimes hb with rfl | rfl <;> decide
    · intro a ha
      rcases htimes ha with rfl | rfl <;> decide
  lockout_bounds jsonCodec 1 "10.0.0.5" 2 300 900 .empty [1000, 1001, 1001] (by decide) (by decide) (by decide) rfl
    hsorted hfit (countFits_of_length_lt rfl hsorted hfit (by decide))

/-! ## The count wraps -/

/-- Failures at second 0, and one more at second 1. -/
def longBurst (n : Nat) : List Int64 := List.replicate n 0 ++ [1]

theorem failedAt_longBurst (n k : Nat) : failedAt (longBurst n) k = if k = n then 1 else 0 := by
  unfold failedAt longBurst
  rcases Nat.lt_trichotomy k n with hlt | rfl | hgt
  · rw [List.getD_append _ _ _ _ (by rwa [List.length_replicate]), if_neg (Nat.ne_of_lt hlt),
      List.getD_replicate _ hlt]
  · rw [List.getD_append_right _ _ _ _ (by rw [List.length_replicate]), List.length_replicate, Nat.sub_self, if_pos rfl]
    rfl
  · rw [List.getD_eq_default _ _ (by rw [List.length_append, List.length_replicate]; exact hgt),
      if_neg (Nat.ne_of_gt hgt)]

theorem longBurst_mem {n : Nat} {a : Int64} (h : a ∈ longBurst n) : a = 0 ∨ a = 1 := by
  rcases List.mem_append.mp h with h | h
  · exact Or.inl (List.eq_of_mem_replicate h)
  · exact Or.inr (List.mem_singleton.mp h)

theorem longBurst_sorted (n : Nat) : (longBurst n).Pairwise (· ≤ ·) := by
  refine List.pairwise_append.mpr ⟨List.pairwise_replicate.mpr (Or.inr (le_refl _)), List.pairwise_singleton _ _, ?_⟩
  intro a ha b hb
  rw [List.eq_of_mem_replicate ha, List.mem_singleton.mp hb]
  decide

theorem longBurst_fits (n : Nat) : TimesFit 100 (longBurst n) := by
  constructor
  · intro a ha b hb
    rcases longBurst_mem ha with rfl | rfl <;> rcases longBurst_mem hb with rfl | rfl <;> decide
  · intro a ha
    rcases longBurst_mem ha with rfl | rfl <;> decide

/-- The failure that wraps the count does not lock, although every failure should. -/
theorem locksAt_longBurst {n : Nat} (hn : n + 1 = 2 ^ 32) : locksAt 1 10 (longBurst n) n = false := by
  have hcount : failuresAt 10 (longBurst n) n = n + 1 := by
    refine Window.count_of_forall_lt fun k _ => ?_
    rw [failedAt_longBurst, failedAt_longBurst]
    split_ifs <;> decide
  rw [locksAt, hcount, hn]
  decide

theorem not_bounds_longBurst (C : Codec) (nodeId : Nat) (key : String) {n : Nat} (hn : n + 1 = 2 ^ 32) :
    ¬LockoutBounds C nodeId key 1 10 100 .empty (longBurst n) := by
  intro h
  have hlength : (longBurst n).length = n + 1 := by rw [longBurst, List.length_append, List.length_replicate]; rfl
  obtain ⟨u, hu, hle⟩ := h.burst (fun i => i + n) (fun a b hab => Nat.add_lt_add_right hab n)
    (by rw [hlength]; exact Nat.lt_succ_of_le (by simp)) (by rw [show 2 * UInt32.toNat 1 - 2 = 0 from rfl, Int.sub_self]; decide)
  change lockedUntil C key (run (failureStep C nodeId key 1 10 100) .empty ((longBurst n).take (0 + n + 1))) = some u at hu
  rw [Nat.zero_add, lockedUntil_after rfl (longBurst_sorted n) (longBurst_fits n) (Nat.le_of_eq hlength.symm), lastBelow,
    locksAt_longBurst hn] at hu
  obtain ⟨l, hl, rfl⟩ := Option.map_eq_some_iff.mp hu
  have hlt := (lastBelow_eq_some hl).1
  change (failedAt (longBurst n) (0 + n)).toInt + (100 : Int64).toInt ≤ _ at hle
  rw [failedAt_longBurst, failedAt_longBurst, if_pos (Nat.zero_add n), if_neg (Nat.ne_of_lt hlt)] at hle
  exact absurd hle (by decide)

theorem wrapped_count_misses_burst : ∃ times : List Int64, times.Pairwise (· ≤ ·) ∧ TimesFit 100 times ∧
    ¬LockoutBounds jsonCodec 1 "10.0.0.5" 1 10 100 .empty times :=
  ⟨longBurst (2 ^ 32 - 1), longBurst_sorted _, longBurst_fits _, not_bounds_longBurst _ _ _ (by decide)⟩

end HyperionVault
