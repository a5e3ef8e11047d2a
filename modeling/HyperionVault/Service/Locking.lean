import HyperionVault.Core.Config
import HyperionVault.Service.Grace
import HyperionVault.Store.Lockouts

/-!
# Whether an enabled lockout locks

The settings of the lockout are taken as they are. A window that is not positive ends with every failure, so that a
maximum above 1 is never reached; a lockout that ends past the last 64-bit second ends in the past. What is stored of
earlier failures matters too: their number and the time since their window began must not overflow.

* `Config.authConfig` : the settings of authentication from the configuration;
* `LockoutRecord.Exact` : the arithmetic of one more failure does not overflow;
* `recordFailures`, `EnabledLocks` : as many failures as the maximum, all at one time, and what they should lead to;
* `LockoutRecord.CanLock` : the records with which they lead to it;
* `locksAfter_of_open`, `locksAfter_of_ended` : whether they lock, by whether the window of the record is open;
* `enabled_lockout_locks_iff` : the settings and records with which they lock.
-/

namespace HyperionVault
open Lib

/-- The settings that `from_env` reads, beside those of `rest`. -/
def Config.authConfig (cfg : Config) (rest : AuthConfig) : AuthConfig :=
  { rest with
    authMaxFailures := cfg.authMaxFailures
    authLockoutSecs := cfg.authLockoutSecs
    authWindowSecs := cfg.authWindowSecs
    tokenTouchSecs := cfg.tokenTouchSecs
    trustProxy := cfg.trustProxy }

/-! ## Arithmetic without overflow -/

/-- The subtraction, the increment and the addition of one more failure give what the integers give. -/
structure LockoutRecord.Exact (record : LockoutRecord) (now : Int64) (max : UInt32) (windowSecs lockoutSecs : Int64) :
    Prop where
  sub : (now - record.windowStart).toInt = now.toInt - record.windowStart.toInt
  succ : ¬windowSecs ≤ now - record.windowStart → (record.failures + 1).toNat = record.failures.toNat + 1
  add : max ≤ (if windowSecs ≤ now - record.windowStart then 0 else record.failures) + 1 →
    (now + lockoutSecs).toInt = now.toInt + lockoutSecs.toInt

section Enabled
variable (A : AppState) (cfg : AuthConfig) (key : String) (now : Int64)

/-- `n` failures at the same time. -/
def recordFailures : Nat → Call Unit
  | 0 => return ()
  | n + 1 => do
      recordFailures n
      recordKey A cfg key now

/-- The world after them. -/
def afterFailures (w : World) (n : Nat) : World := ((recordFailures A cfg key now n).exec A w).2

/-- As many failures as the maximum do not overflow, and the next check refuses the key. -/
structure EnabledLocks (w : World) : Prop where
  noOverflow : ∀ n < cfg.authMaxFailures.toNat, ∀ record,
    foundLockout A.codec key now (afterFailures A cfg key now w n).tables = .ok record →
    record.Exact now cfg.authMaxFailures cfg.authWindowSecs cfg.authLockoutSecs
  refused : ((checkKey A cfg key now).exec A (afterFailures A cfg key now w cfg.authMaxFailures.toNat)).1 =
    .error .tooManyRequests

end Enabled

/-- With this record of a key, as many failures as the maximum lock it, all of them at `now`. The time since the window
of the record began fits 64 bits. While the window is open the failures are counted with those of the record, which must
not overflow, and they reach the maximum. A window that has ended is begun anew, and if it is positive, or one failure is
enough, the failures reach the maximum by themselves. A lockout that is set ends within 64 bits; where none is set, the
record has one already. -/
def LockoutRecord.CanLock (record : LockoutRecord) (now : Int64) (max : UInt32) (windowSecs lockoutSecs : Int64) : Prop :=
  let elapsed := now.toInt - record.windowStart.toInt
  (-2 ^ 63 ≤ elapsed ∧ elapsed < 2 ^ 63) ∧
    if elapsed < windowSecs.toInt then
      record.failures.toNat + max.toNat < 2 ^ 32 ∧ now.toInt + lockoutSecs.toInt < 2 ^ 63
    else if max = 1 ∨ 0 < windowSecs then now.toInt + lockoutSecs.toInt < 2 ^ 63
    else ∃ u ∈ record.lockedUntil, now < u

/-! ## One failure after the other -/

section Records
variable {record : LockoutRecord} {now : Int64} {max : UInt32} {windowSecs lockoutSecs : Int64}

/-- The record after `n` more failures at the same time. -/
def LockoutRecord.failAgain (record : LockoutRecord) (now : Int64) (max : UInt32) (windowSecs lockoutSecs : Int64)
    (n : Nat) : LockoutRecord := (fun r => r.fail now max windowSecs lockoutSecs)^[n] record

/-- None of `n` failures overflows, and the record they leave is locked. -/
def LockoutRecord.LocksAfter (record : LockoutRecord) (now : Int64) (max : UInt32) (windowSecs lockoutSecs : Int64)
    (n : Nat) : Prop :=
  (∀ i < n, (record.failAgain now max windowSecs lockoutSecs i).Exact now max windowSecs lockoutSecs) ∧
    ∃ u ∈ (record.failAgain now max windowSecs lockoutSecs n).lockedUntil, now < u

theorem ofNat_succ_toNat {n : Nat} (hn : n + 1 < 2 ^ 32) :
    (UInt32.ofNat n + 1).toNat = n + 1 ∧ (UInt32.ofNat n).toNat = n := by
  have hsum : UInt32.ofNat n + 1 = UInt32.ofNat (n + 1) := (UInt32.ofNat_add n 1).symm
  rw [hsum, UInt32.toNat_ofNat', UInt32.toNat_ofNat', Nat.mod_eq_of_lt hn, Nat.mod_eq_of_lt (by omega)]
  exact ⟨rfl, rfl⟩

/-- While the window is open, failures are counted with those of the record. -/
theorem failAgain_of_open (hopen : ¬windowSecs ≤ now - record.windowStart) {n : Nat}
    (hn : record.failures.toNat + n < 2 ^ 32) :
    record.failAgain now max windowSecs lockoutSecs n = ⟨UInt32.ofNat (record.failures.toNat + n), record.windowStart,
      if 0 < n ∧ max.toNat ≤ record.failures.toNat + n then some (now + lockoutSecs) else record.lockedUntil⟩ := by
  induction n with
  | zero =>
      rw [Nat.add_zero, UInt32.ofNat_toNat, if_neg fun h => Nat.lt_irrefl 0 h.1]
      rfl
  | succ n ih =>
      have hsucc : UInt32.ofNat (record.failures.toNat + n) + 1 = UInt32.ofNat (record.failures.toNat + (n + 1)) :=
        (UInt32.ofNat_add _ 1).symm
      have hreach := le_ofNat_iff (a := max) hn
      have hlocked : (if max ≤ UInt32.ofNat (record.failures.toNat + (n + 1)) then some (now + lockoutSecs) else
          if 0 < n ∧ max.toNat ≤ record.failures.toNat + n then some (now + lockoutSecs) else record.lockedUntil) =
          if 0 < n + 1 ∧ max.toNat ≤ record.failures.toNat + (n + 1) then some (now + lockoutSecs)
          else record.lockedUntil := by
        by_cases h : max.toNat ≤ record.failures.toNat + (n + 1)
        · rw [if_pos (hreach.mpr h), if_pos ⟨Nat.succ_pos n, h⟩]
        · rw [if_neg fun h' => h (hreach.mp h'), if_neg fun h' => h (Nat.le_succ_of_le h'.2), if_neg fun h' => h h'.2]
      rw [LockoutRecord.failAgain, Function.iterate_succ_apply']
      change (record.failAgain now max windowSecs lockoutSecs n).fail now max windowSecs lockoutSecs = _
      rw [ih (by omega), fail_eq, if_neg hopen, if_neg hopen, hsucc, hlocked]

/-- Failures that come to the maximum within an open window lock, unless something overflows. -/
theorem locksAfter_of_open (hlockout : 0 < lockoutSecs) (hopen : ¬windowSecs ≤ now - record.windowStart) {n : Nat}
    (hpos : 0 < n) (hreach : max.toNat ≤ record.failures.toNat + n) :
    record.LocksAfter now max windowSecs lockoutSecs n ↔
      (now - record.windowStart).toInt = now.toInt - record.windowStart.toInt ∧
        record.failures.toNat + n < 2 ^ 32 ∧ now.toInt + lockoutSecs.toInt < 2 ^ 63 := by
  have hlock : 0 < lockoutSecs.toInt := Int64.lt_iff_toInt_lt.mp hlockout
  have hadd := toInt_add_eq_iff (a := now) (Int.le_of_lt hlock)
  constructor
  · rintro ⟨hexact, -⟩
    have hfits : ∀ i ≤ n, record.failures.toNat + i < 2 ^ 32 := by
      intro i
      induction i with
      | zero => exact fun _ => record.failures.toNat_lt
      | succ i ih =>
          intro hi
          have hbefore := ih (Nat.le_of_succ_le hi)
          have hsucc := (hexact i hi).succ
          rw [failAgain_of_open hopen hbefore] at hsucc
          have hcount := hsucc hopen
          have hlt := (UInt32.ofNat (record.failures.toNat + i) + 1).toNat_lt
          rw [hcount, UInt32.toNat_ofNat', Nat.mod_eq_of_lt hbefore] at hlt
          exact hlt
    obtain ⟨m, rfl⟩ := Nat.exists_eq_succ_of_ne_zero (Nat.ne_of_gt hpos)
    -- the last failure reaches the maximum
    have hlast := (hexact m (Nat.lt_succ_self m)).add
    rw [failAgain_of_open hopen (hfits m (Nat.le_succ m))] at hlast
    refine ⟨(hexact 0 hpos).sub, hfits _ (Nat.le_refl _), hadd.mp (hlast ?_)⟩
    have hcount := (ofNat_succ_toNat (n := record.failures.toNat + m) (hfits _ (Nat.le_refl _))).1
    rw [if_neg hopen, UInt32.le_iff_toNat_le]
    exact hreach.trans hcount.ge
  · rintro ⟨hsub, hfits, hend⟩
    refine ⟨fun i hi => ?_, ?_⟩
    · rw [failAgain_of_open hopen (by omega)]
      refine ⟨hsub, fun _ => ?_, fun _ => hadd.mpr hend⟩
      obtain ⟨hsucc, hcount⟩ := ofNat_succ_toNat (n := record.failures.toNat + i) (by omega)
      rw [hsucc, hcount]
    · rw [failAgain_of_open hopen hfits, if_pos ⟨hpos, hreach⟩]
      refine ⟨_, rfl, ?_⟩
      rw [Int64.lt_iff_toInt_lt, hadd.mpr hend]
      omega

/-- A failure after the window has ended begins a window. -/
theorem fail_of_ended (hended : windowSecs ≤ now - record.windowStart) :
    record.fail now max windowSecs lockoutSecs =
      ⟨1, now, if max ≤ 1 then some (now + lockoutSecs) else record.lockedUntil⟩ := by
  rw [fail_eq, if_pos hended, if_pos hended, UInt32.zero_add]

theorem locksAfter_succ (n : Nat) : record.LocksAfter now max windowSecs lockoutSecs (n + 1) ↔
    record.Exact now max windowSecs lockoutSecs ∧
      (record.fail now max windowSecs lockoutSecs).LocksAfter now max windowSecs lockoutSecs n := by
  have hiterate (i : Nat) : record.failAgain now max windowSecs lockoutSecs (i + 1) =
      (record.fail now max windowSecs lockoutSecs).failAgain now max windowSecs lockoutSecs i := rfl
  unfold LockoutRecord.LocksAfter
  rw [Nat.forall_lt_succ_left, hiterate, and_assoc]
  rfl

theorem toInt_sub_self (now : Int64) : (now - now).toInt = now.toInt - now.toInt := by
  rw [Int64.sub_self, Int.sub_self]
  rfl

/-- With a window that is not positive, every failure ends the window that the one before has begun. -/
theorem locksAfter_of_closed {locked : Option Int64} (hwindow : windowSecs ≤ 0) (hmany : ¬max ≤ 1) {n : Nat} :
    LockoutRecord.LocksAfter ⟨1, now, locked⟩ now max windowSecs lockoutSecs n ↔ ∃ u ∈ locked, now < u := by
  have hclosed : windowSecs ≤ now - now := by rwa [Int64.sub_self]
  have hfail : LockoutRecord.fail ⟨1, now, locked⟩ now max windowSecs lockoutSecs = ⟨1, now, locked⟩ := by
    rw [@fail_of_ended ⟨1, now, locked⟩ now max windowSecs lockoutSecs hclosed, if_neg hmany]
  have hfixed (i : Nat) : LockoutRecord.failAgain ⟨1, now, locked⟩ now max windowSecs lockoutSecs i = ⟨1, now, locked⟩ :=
    Function.iterate_fixed hfail i
  have hexact : LockoutRecord.Exact ⟨1, now, locked⟩ now max windowSecs lockoutSecs := by
    refine ⟨toInt_sub_self now, fun h => absurd hclosed h, fun h => ?_⟩
    rw [if_pos hclosed, UInt32.zero_add] at h
    exact absurd h hmany
  unfold LockoutRecord.LocksAfter
  simp only [hfixed, hexact, implies_true, true_and]

/-- With a window that has ended the failures count by themselves, all of them if the new window takes them. -/
theorem locksAfter_of_ended (hmax : 0 < max) (hlockout : 0 < lockoutSecs)
    (hended : windowSecs ≤ now - record.windowStart) :
    record.LocksAfter now max windowSecs lockoutSecs max.toNat ↔
      (now - record.windowStart).toInt = now.toInt - record.windowStart.toInt ∧
        if max = 1 ∨ 0 < windowSecs then now.toInt + lockoutSecs.toInt < 2 ^ 63
        else ∃ u ∈ record.lockedUntil, now < u := by
  have hlock : 0 < lockoutSecs.toInt := Int64.lt_iff_toInt_lt.mp hlockout
  have hadd := toInt_add_eq_iff (a := now) (Int.le_of_lt hlock)
  have hpos : 0 < max.toNat := UInt32.lt_iff_toNat_lt.mp hmax
  have hlt := max.toNat_lt
  obtain ⟨n, hn⟩ := Nat.exists_eq_succ_of_ne_zero (Nat.ne_of_gt hpos)
  have hone : max ≤ 1 ↔ n = 0 := by
    rw [UInt32.le_iff_toNat_le, hn]
    change n + 1 ≤ 1 ↔ n = 0
    omega
  have heq : max = 1 ↔ n = 0 := by
    rw [← UInt32.toNat_inj, hn]
    change n + 1 = 1 ↔ n = 0
    omega
  have hfirst : record.Exact now max windowSecs lockoutSecs ↔
      (now - record.windowStart).toInt = now.toInt - record.windowStart.toInt ∧
        (n = 0 → now.toInt + lockoutSecs.toInt < 2 ^ 63) := by
    constructor
    · rintro ⟨hsub, -, hend⟩
      rw [if_pos hended, UInt32.zero_add, hone, hadd] at hend
      exact ⟨hsub, hend⟩
    · rintro ⟨hsub, hend⟩
      refine ⟨hsub, fun h => absurd hended h, ?_⟩
      rwa [if_pos hended, UInt32.zero_add, hone, hadd]
  rw [hn, locksAfter_succ, fail_of_ended hended, hfirst, and_assoc]
  refine and_congr_right fun _ => ?_
  rcases Nat.eq_zero_or_pos n with rfl | hn0
  · -- one failure is enough, and the only one
    rw [if_pos (Or.inl (heq.mpr rfl)), if_pos (hone.mpr rfl)]
    refine ⟨fun h => h.1 rfl, fun h => ⟨fun _ => h, fun i hi => absurd hi (Nat.not_lt_zero i), _, rfl, ?_⟩⟩
    rw [Int64.lt_iff_toInt_lt, hadd.mpr h]
    omega
  · have hn1 : n ≠ 0 := Nat.ne_of_gt hn0
    rw [if_neg fun h => hn1 (hone.mp h), and_iff_right fun h => absurd h hn1]
    by_cases hwindow : 0 < windowSecs
    · rw [if_pos (Or.inr hwindow)]
      have hopen : ¬windowSecs ≤ now - now := by
        rw [Int64.sub_self]
        exact Int64.not_le.mpr hwindow
      have hreach : max.toNat ≤ 1 + n := by omega
      rw [@locksAfter_of_open ⟨1, now, record.lockedUntil⟩ now max windowSecs lockoutSecs hlockout hopen n hn0 hreach]
      refine ⟨fun h => h.2.2, fun h => ⟨toInt_sub_self now, ?_, h⟩⟩
      change 1 + n < 2 ^ 32
      omega
    · rw [if_neg fun h => h.elim (fun h' => hn1 (heq.mp h')) hwindow]
      exact locksAfter_of_closed (Int64.not_lt.mp hwindow) fun h => hn1 (hone.mp h)

theorem locksAfter_iff_canLock (hmax : 0 < max) (hlockout : 0 < lockoutSecs) :
    record.LocksAfter now max windowSecs lockoutSecs max.toNat ↔ record.CanLock now max windowSecs lockoutSecs := by
  have hpos : 0 < max.toNat := UInt32.lt_iff_toNat_lt.mp hmax
  have hexact := toInt_sub_eq_iff (a := now) (b := record.windowStart)
  unfold LockoutRecord.CanLock
  by_cases hended : windowSecs ≤ now - record.windowStart
  · rw [locksAfter_of_ended hmax hlockout hended, hexact]
    refine and_congr_right fun hsub => ?_
    rw [Int64.le_iff_toInt_le, hexact.mpr hsub] at hended
    rw [if_neg (Int.not_lt.mpr hended)]
  · rw [locksAfter_of_open hlockout hended hpos (Nat.le_add_left _ _), hexact]
    refine and_congr_right fun hsub => ?_
    rw [Int64.le_iff_toInt_le, hexact.mpr hsub] at hended
    rw [if_pos (Int.not_le.mp hended)]

end Records

/-! ## The failures as calls -/

section Calls
variable {A : AppState} {cfg : AuthConfig} {key : String} {now : Int64} {w : World}

theorem recordFailures_exec (n : Nat) :
    (recordFailures A cfg key now n).exec A w = (.ok (), afterFailures A cfg key now w n) := by
  induction n with
  | zero => rfl
  | succ n ih =>
      obtain ⟨w', hrecord⟩ := recordKey_exec (A := A) cfg key now (afterFailures A cfg key now w n)
      unfold afterFailures
      rw [recordFailures, Call.exec_bind_ok ih, hrecord]

theorem afterFailures_succ (n : Nat) : afterFailures A cfg key now w (n + 1) =
    ((recordKey A cfg key now).exec A (afterFailures A cfg key now w n)).2 := by
  rw [afterFailures, recordFailures, Call.exec_bind_ok (recordFailures_exec n)]

/-- The record of the key after one more failure. -/
theorem foundLockout_recordKey (hmax : cfg.authMaxFailures ≠ 0) {record : LockoutRecord}
    (hfound : foundLockout A.codec key now w.tables = .ok record) :
    foundLockout A.codec key now ((recordKey A cfg key now).exec A w).2.tables =
      .ok (record.fail now cfg.authMaxFailures cfg.authWindowSecs cfg.authLockoutSecs) := by
  have hexec : (recordKey A cfg key now).exec A w = (.ok (), w.commit A (.recordAuthFailure key now
      cfg.authMaxFailures cfg.authWindowSecs cfg.authLockoutSecs) none) := by
    rw [recordKey, if_neg hmax, Call.exec_bind_ok (Call.exec_trySubmit _ _ _)]
    rfl
  have happly : applyCommand A.codec A.nodeId (.recordAuthFailure key now cfg.authMaxFailures cfg.authWindowSecs
      cfg.authLockoutSecs) w.tables = _ := recordAuthFailure_found hfound
  rw [hexec, commit_eq happly]
  exact foundLockout_of_recordAt (recordAt_insert_self _ _)

theorem foundLockout_after (hmax : cfg.authMaxFailures ≠ 0) {record : LockoutRecord}
    (hfound : foundLockout A.codec key now w.tables = .ok record) (n : Nat) :
    foundLockout A.codec key now (afterFailures A cfg key now w n).tables =
      .ok (record.failAgain now cfg.authMaxFailures cfg.authWindowSecs cfg.authLockoutSecs n) := by
  induction n with
  | zero => exact hfound
  | succ n ih =>
      rw [afterFailures_succ, foundLockout_recordKey hmax ih, LockoutRecord.failAgain, LockoutRecord.failAgain,
        Function.iterate_succ_apply']

/-- A record that cannot be decoded stays. -/
theorem foundLockout_unreadable (hmax : cfg.authMaxFailures ≠ 0) {e : StoreError}
    (hfound : foundLockout A.codec key now w.tables = .error e) (n : Nat) :
    foundLockout A.codec key now (afterFailures A cfg key now w n).tables = .error e := by
  induction n with
  | zero => exact hfound
  | succ n ih =>
      have hrefused : recordAuthFailure A.codec key now cfg.authMaxFailures cfg.authWindowSecs cfg.authLockoutSecs
          (afterFailures A cfg key now w n).tables = _ := recordAuthFailure_unreadable ih
      rw [afterFailures_succ, recordKey, if_neg hmax, Call.exec_bind_ok (Call.exec_trySubmit _ _ _)]
      simp only [World.commit, RedbStore.apply, applyCommand, hrefused]
      exact ih

/-- A check refuses the key while its record is locked. -/
theorem checkKey_refuses_iff (hmax : cfg.authMaxFailures ≠ 0) {record : LockoutRecord}
    (hfound : foundLockout A.codec key now w.tables = .ok record) :
    ((checkKey A cfg key now).exec A w).1 = .error .tooManyRequests ↔ ∃ u ∈ record.lockedUntil, now < u := by
  obtain ⟨found, hread, hlocked⟩ : ∃ found, RedbStore.lockout A.codec key w.tables = .ok found ∧
      found.bind LockoutRecord.lockedUntil = record.lockedUntil := by
    unfold foundLockout at hfound
    unfold RedbStore.lockout RedbStore.lookup
    cases hget : w.tables.lockouts.get key with
    | none =>
        rw [hget] at hfound
        cases hfound
        exact ⟨none, rfl, rfl⟩
    | some value =>
        rw [hget] at hfound
        exact ⟨some record, by simp only [hfound], rfl⟩
  rw [checkKey, if_neg hmax, Call.exec_bind, Call.exec_read, hread]
  simp only [Except.mapError, hlocked]
  cases record.lockedUntil with
  | none => exact iff_of_false nofun nofun
  | some u =>
      dsimp only
      split_ifs with hlt
      · exact iff_of_true rfl ⟨u, rfl, hlt⟩
      · refine iff_of_false nofun ?_
        rintro ⟨u', hu', hlt'⟩
        cases hu'
        exact hlt hlt'

/-- A check of a record that cannot be decoded is an internal error. -/
theorem checkKey_unreadable (hmax : cfg.authMaxFailures ≠ 0) {e : StoreError}
    (hfound : foundLockout A.codec key now w.tables = .error e) :
    ((checkKey A cfg key now).exec A w).1 ≠ .error .tooManyRequests := by
  unfold foundLockout at hfound
  rw [checkKey, if_neg hmax, Call.exec_bind, Call.exec_read, RedbStore.lockout, RedbStore.lookup]
  cases hget : w.tables.lockouts.get key with
  | none =>
      rw [hget] at hfound
      cases hfound
  | some value =>
      rw [hget] at hfound
      dsimp only at hfound ⊢
      rw [hfound]
      cases e <;> nofun

end Calls

/-- As many failures as the maximum lock the key under exactly these settings and records. -/
theorem enabledLocks_iff {A : AppState} {cfg : AuthConfig} {key : String} {now : Int64} {w : World}
    (hmax : 0 < cfg.authMaxFailures) (hlockout : 0 < cfg.authLockoutSecs) :
    EnabledLocks A cfg key now w ↔ ∃ record, foundLockout A.codec key now w.tables = .ok record ∧
      record.CanLock now cfg.authMaxFailures cfg.authWindowSecs cfg.authLockoutSecs := by
  have hne : cfg.authMaxFailures ≠ 0 := fun h => by rw [h] at hmax; exact absurd hmax (by decide)
  cases hfound : foundLockout A.codec key now w.tables with
  | error e =>
      refine iff_of_false (fun h => ?_) (by rintro ⟨record, h, -⟩; cases h)
      exact checkKey_unreadable hne (foundLockout_unreadable hne hfound _) h.refused
  | ok record =>
      have hafter := foundLockout_after hne hfound
      have hrefused := checkKey_refuses_iff hne (hafter cfg.authMaxFailures.toNat)
      rw [show (∃ r, Except.ok record = (.ok r : StoreResult LockoutRecord) ∧ _) ↔ _ from
        ⟨fun ⟨r, hr, h⟩ => by cases hr; exact h, fun h => ⟨record, rfl, h⟩⟩, ← locksAfter_iff_canLock hmax hlockout]
      refine ⟨fun h => ⟨fun n hn => h.noOverflow n hn _ (hafter n), hrefused.mp h.refused⟩, fun h => ⟨?_, hrefused.mpr h.2⟩⟩
      intro n hn r hr
      rw [hafter n] at hr
      cases hr
      exact h.1 n hn

/-- A configuration that is accepted with a lockout locks under exactly these settings, with exactly these records of
earlier failures. -/
theorem enabled_lockout_locks_iff (env : Env) (rest : AuthConfig) (A : AppState) (key : String) (now : Int64) (w : World) :
    (∀ cfg, Config.fromEnv env = .ok cfg → 0 < cfg.authMaxFailures → 0 < cfg.authLockoutSecs →
      EnabledLocks A (cfg.authConfig rest) key now w) ↔
    ∀ cfg, Config.fromEnv env = .ok cfg → 0 < cfg.authMaxFailures → 0 < cfg.authLockoutSecs →
      ∃ record, foundLockout A.codec key now w.tables = .ok record ∧
        record.CanLock now cfg.authMaxFailures cfg.authWindowSecs cfg.authLockoutSecs := by
  refine forall_congr' fun cfg => imp_congr_right fun _ => imp_congr_right fun hmax => imp_congr_right fun hlockout => ?_
  have hlocks : EnabledLocks A (cfg.authConfig rest) key now w ↔ _ := enabledLocks_iff hmax hlockout
  exact hlocks

/-- An environment with these variables. -/
def envOf (settings : List (String × String)) : Env where
  var key := settings.lookup key
  toLowercase text := String.ofList (text.toList.map Char.toLower)

theorem default_lockout_locks : ∃ cfg, Config.fromEnv (envOf [("VAULT_KMS_MODE", "local")]) = .ok cfg ∧
    EnabledLocks (nodeWith jsonCodec) (cfg.authConfig noLockout) "10.0.0.5" 1000 freshWorld := by
  refine ⟨_, rfl, (enabled_lockout_locks_iff (envOf [("VAULT_KMS_MODE", "local")]) noLockout _ _ _ freshWorld).mpr
    (fun cfg hcfg _ _ => ⟨_, rfl, ?_⟩) _ rfl (by decide) (by decide)⟩
  cases hcfg
  unfold LockoutRecord.CanLock
  decide

/-- A key without a record that does not lock under these settings. -/
theorem not_enabledLocks {cfg : AuthConfig} (hmax : 0 < cfg.authMaxFailures) (hlockout : 0 < cfg.authLockoutSecs)
    (h : ¬LockoutRecord.CanLock ⟨0, 1000, none⟩ 1000 cfg.authMaxFailures cfg.authWindowSecs cfg.authLockoutSecs) :
    ¬EnabledLocks (nodeWith jsonCodec) cfg "10.0.0.5" 1000 freshWorld := by
  intro hlocks
  obtain ⟨record, hfound, hcan⟩ := (enabledLocks_iff hmax hlockout).mp hlocks
  cases hfound
  exact h hcan

/-- With a window of 0 seconds five failures do not lock; a lockout of the largest number of seconds overflows. -/
theorem accepted_settings_never_lock :
    (∃ cfg, Config.fromEnv (envOf [("VAULT_KMS_MODE", "local"), ("VAULT_AUTH_WINDOW_SECS", "0")]) = .ok cfg ∧
      0 < cfg.authMaxFailures ∧ 0 < cfg.authLockoutSecs ∧
      ¬EnabledLocks (nodeWith jsonCodec) (cfg.authConfig noLockout) "10.0.0.5" 1000 freshWorld) ∧
    ∃ cfg, Config.fromEnv (envOf [("VAULT_KMS_MODE", "local"), ("VAULT_AUTH_LOCKOUT_SECS", "9223372036854775807")]) =
        .ok cfg ∧
      0 < cfg.authMaxFailures ∧ 0 < cfg.authLockoutSecs ∧
      ¬EnabledLocks (nodeWith jsonCodec) (cfg.authConfig noLockout) "10.0.0.5" 1000 freshWorld := by
  constructor
  · refine ⟨_, rfl, by decide, by decide, not_enabledLocks (by decide) (by decide) ?_⟩
    unfold LockoutRecord.CanLock
    decide
  · refine ⟨_, rfl, by decide, by decide, not_enabledLocks (by decide) (by decide) ?_⟩
    unfold LockoutRecord.CanLock
    decide

end HyperionVault
