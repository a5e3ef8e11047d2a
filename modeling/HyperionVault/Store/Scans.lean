import HyperionVault.Lib.Run
import HyperionVault.Lib.Segment
import HyperionVault.Store.Json
import HyperionVault.Store.Live

/-!
# Scans of the versions

A sweep goes through all rows, a reader and a deletion through the key range of one name. Whatever the table holds,
they agree on which rows are whose and on the second at which a row expires.

* `expiredRow`, `sweep_rows` : the rows that a sweep removes;
* `sweep_sweep`, `run_sweeps` : sweeps in any order are the latest one of them;
* `sweeps_are_invisible` : no reader at or after the time of a sweep sees it;
* `IsVersionKey`, `versionRows`, `version_scans_exact` : the rows in the scan of a name are its versions.
-/

namespace HyperionVault
open Lib

/-! ## Sweeps -/

/-- The row holds a version that has expired at `time`. -/
def expiredRow (C : Codec) (time : Int64) (row : String × Bytes) : Bool :=
  (C.version.decode row.2).any fun record => record.expiresAt.any (· ≤ time)

section Sweeps
variable {C : Codec} {t : Tables} {time : Int64}

theorem expiredKeys_eq {rows : List (String × Bytes)} (h : ∀ row ∈ rows, (C.version.decode row.2).isSome) :
    expiredKeys C time rows = .ok ((rows.filter (expiredRow C time)).map Prod.fst) := by
  induction rows with
  | nil => rfl
  | cons row rest ih =>
      obtain ⟨record, hrecord⟩ := Option.isSome_iff_exists.mp (h row List.mem_cons_self)
      have hrest := ih fun row hrow => h row (List.mem_cons_of_mem _ hrow)
      have hrow : expiredRow C time row = record.expiresAt.any (· ≤ time) := by
        unfold expiredRow
        rw [hrecord, Option.any_some]
      rw [expiredKeys, decodeRow_ok.mpr hrecord, hrest, List.filter_cons, hrow]
      dsimp only
      split_ifs <;> rfl

/-- A sweep that succeeds has decoded every row. -/
theorem decodes_of_expiredKeys {rows : List (String × Bytes)} {keys : List String}
    (h : expiredKeys C time rows = .ok keys) : ∀ row ∈ rows, (C.version.decode row.2).isSome := by
  induction rows generalizing keys with
  | nil => exact fun row hrow => nomatch hrow
  | cons row rest ih =>
      unfold expiredKeys at h
      split at h
      · cases h
      · rename_i record hrecord
        split at h
        · cases h
        · rename_i keys' hkeys
          intro row' hrow'
          rcases List.mem_cons.mp hrow' with rfl | hrow'
          · rw [decodeRow_ok.mp hrecord]
            rfl
          · exact ih hkeys row' hrow'

/-- A sweep removes the expired rows, or does nothing because a row cannot be decoded. -/
theorem sweep_cases (C : Codec) (nodeId : Nat) (t : Tables) (time : Int64) :
    (Decodes C.version t.versions ∧ storeStep C nodeId t (.expireGraceVersions time) =
      { t with versions := t.versions.removeAll ((t.versions.rows.filter (expiredRow C time)).map Prod.fst) }) ∨
    (¬Decodes C.version t.versions ∧ storeStep C nodeId t (.expireGraceVersions time) = t) := by
  by_cases hdec : Decodes C.version t.versions
  · refine Or.inl ⟨hdec, ?_⟩
    have hrows : ∀ row ∈ t.versions.rows, (C.version.decode row.2).isSome := fun row hrow =>
      hdec row.1 row.2 (Table.mem_rows.mp hrow)
    simp only [storeStep, RedbStore.apply, applyCommand, expireGraceVersions, expiredKeys_eq hrows]
  · refine Or.inr ⟨hdec, ?_⟩
    simp only [storeStep, RedbStore.apply, applyCommand, expireGraceVersions]
    cases hkeys : expiredKeys C time t.versions.rows with
    | error e => rfl
    | ok keys =>
        exact absurd (fun key bytes hget => decodes_of_expiredKeys hkeys (key, bytes) (Table.mem_rows.mpr hget)) hdec

theorem sweep_rows (nodeId : Nat) (h : Decodes C.version t.versions) :
    (storeStep C nodeId t (.expireGraceVersions time)).versions.rows =
      t.versions.rows.filter fun row => !expiredRow C time row := by
  rcases sweep_cases C nodeId t time with ⟨_, hsweep⟩ | ⟨hnot, _⟩
  · rw [hsweep]
    exact Table.rows_removeAll_filter _ _
  · exact absurd h hnot

theorem expiredRow_max (a b : Int64) (row : String × Bytes) :
    expiredRow C (max a b) row = (expiredRow C a row || expiredRow C b row) := by
  unfold expiredRow
  cases C.version.decode row.2 with
  | none => rfl
  | some record =>
      cases hexpiry : record.expiresAt with
      | none => simp [hexpiry]
      | some expiry => simp [hexpiry]

theorem sweep_versions (nodeId : Nat) (t : Tables) (time : Int64) :
    storeStep C nodeId t (.expireGraceVersions time) =
      { t with versions := (storeStep C nodeId t (.expireGraceVersions time)).versions } := by
  rcases sweep_cases C nodeId t time with ⟨_, hsweep⟩ | ⟨_, hsweep⟩ <;> rw [hsweep]

theorem sweep_decodes (nodeId : Nat) (h : Decodes C.version t.versions) :
    Decodes C.version (storeStep C nodeId t (.expireGraceVersions time)).versions := by
  rcases sweep_cases C nodeId t time with ⟨_, hsweep⟩ | ⟨_, hsweep⟩
  · rw [hsweep]
    exact decodes_removeAll h _
  · rwa [hsweep]

theorem sweep_sweep (nodeId : Nat) (t : Tables) (a b : Int64) :
    storeStep C nodeId (storeStep C nodeId t (.expireGraceVersions a)) (.expireGraceVersions b) =
      storeStep C nodeId t (.expireGraceVersions (max a b)) := by
  rcases sweep_cases C nodeId t a with ⟨hdec, _⟩ | ⟨hnot, hsame⟩
  · have hversions : (storeStep C nodeId (storeStep C nodeId t (.expireGraceVersions a))
        (.expireGraceVersions b)).versions = (storeStep C nodeId t (.expireGraceVersions (max a b))).versions := by
      refine Table.ext_rows ?_
      rw [sweep_rows nodeId (sweep_decodes nodeId hdec), sweep_rows nodeId hdec, sweep_rows nodeId hdec,
        List.filter_filter]
      congr 1
      funext row
      rw [expiredRow_max, Bool.not_or, Bool.and_comm]
    rw [sweep_versions nodeId (storeStep C nodeId t (.expireGraceVersions a)) b, hversions,
      sweep_versions nodeId t a, sweep_versions nodeId t (max a b)]
  · rcases sweep_cases C nodeId t (max a b) with ⟨hdec, _⟩ | ⟨_, hmax⟩
    · exact absurd hdec hnot
    · rcases sweep_cases C nodeId t b with ⟨hdec, _⟩ | ⟨_, hb⟩
      · exact absurd hdec hnot
      · rw [hsame, hmax, hb]

/-- After the latest sweep the others have nothing to do. -/
theorem run_sweeps_le (nodeId : Nat) (t : Tables) {latest : Int64} {times : List Int64} (h : ∀ e ∈ times, e ≤ latest) :
    run (storeStep C nodeId) (storeStep C nodeId t (.expireGraceVersions latest)) (times.map .expireGraceVersions) =
      storeStep C nodeId t (.expireGraceVersions latest) := by
  induction times with
  | nil => rfl
  | cons e times ih =>
      rw [List.map_cons, run_cons, sweep_sweep, max_eq_left (h e List.mem_cons_self)]
      exact ih fun e' he' => h e' (List.mem_cons_of_mem _ he')

theorem run_sweeps (nodeId : Nat) (t : Tables) {latest : Int64} {times : List Int64} (hmem : latest ∈ times)
    (h : ∀ e ∈ times, e ≤ latest) :
    run (storeStep C nodeId) t (times.map .expireGraceVersions) =
      storeStep C nodeId t (.expireGraceVersions latest) := by
  induction times generalizing t with
  | nil => cases hmem
  | cons e times ih =>
      have hrest : ∀ e' ∈ times, e' ≤ latest := fun e' he' => h e' (List.mem_cons_of_mem _ he')
      rw [List.map_cons, run_cons]
      rcases List.mem_cons.mp hmem with rfl | hmem
      · exact run_sweeps_le nodeId t hrest
      · rw [ih _ hmem hrest, sweep_sweep, max_eq_right (h e List.mem_cons_self)]

/-- A reader at or after the sweep does not see an expired row anyway. -/
theorem liveRow_of_expired {name : String} {now : Int64} (hle : time ≤ now) {row : String × Bytes}
    (hexpired : expiredRow C time row = true) : liveRow C name now row = none := by
  refine Option.eq_none_iff_forall_ne_some.mpr fun v hlive => ?_
  obtain ⟨_, hdec, hall⟩ := liveRow_eq_some.mp hlive
  unfold expiredRow at hexpired
  rw [hdec, Option.any_some] at hexpired
  cases hexpiry : v.expiresAt with
  | none =>
      rw [hexpiry] at hexpired
      cases hexpired
  | some expiry =>
      rw [hexpiry] at hexpired hall
      have hbefore : expiry ≤ time := of_decide_eq_true hexpired
      have hafter : now < expiry := of_decide_eq_true hall
      exact absurd (hbefore.trans hle) (not_le.mpr hafter)

theorem liveVersions_sweep (nodeId : Nat) {name : String} {now : Int64} (hle : time ≤ now) :
    RedbStore.liveVersions C name now (storeStep C nodeId t (.expireGraceVersions time)) =
      RedbStore.liveVersions C name now t := by
  rcases sweep_cases C nodeId t time with ⟨hdec, _⟩ | ⟨_, hsame⟩
  · have hrows (t : Tables) (hdec : Decodes C.version t.versions) :
        ∀ row ∈ t.versions.rows.filter (fun row => versionLower name ≤ row.1 && row.1 < versionUpper name),
          (C.version.decode row.2).isSome := fun row hrow =>
      hdec row.1 row.2 (Table.mem_rows.mp (List.mem_of_mem_filter hrow))
    unfold RedbStore.liveVersions
    rw [liveRows_eq (hrows _ (sweep_decodes nodeId hdec)), liveRows_eq (hrows t hdec), sweep_rows nodeId hdec,
      List.filter_comm, List.filterMap_filter]
    have hlive (row : String × Bytes) : (if !expiredRow C time row then liveRow C name now row else none) =
        liveRow C name now row := by
      cases hexpired : expiredRow C time row with
      | false => rfl
      | true => exact (liveRow_of_expired hle hexpired).symm
    simp only [hlive]
  · rw [hsame]

theorem get_sweep (nodeId : Nat) (h : Decodes C.version t.versions) {key : String} {value : Bytes}
    (hget : t.versions.get key = some value) (hlasts : expiredRow C time (key, value) = false) :
    (storeStep C nodeId t (.expireGraceVersions time)).versions.get key = some value := by
  rw [← Table.mem_rows, sweep_rows nodeId h, List.mem_filter, Table.mem_rows, hlasts]
  exact ⟨hget, rfl⟩

/-- The current version of a secret never expires. -/
theorem currentVersion_sweep (nodeId : Nat) (time : Int64) (h : SecretInv C t) (name : String) :
    RedbStore.currentVersion C name (storeStep C nodeId t (.expireGraceVersions time)) =
      RedbStore.currentVersion C name t := by
  have hsecret : RedbStore.secret C name (storeStep C nodeId t (.expireGraceVersions time)) =
      RedbStore.secret C name t := by
    rw [sweep_versions nodeId t time]
    rfl
  unfold RedbStore.currentVersion
  rw [hsecret]
  cases hfound : RedbStore.secret C name t with
  | error e => rfl
  | ok found =>
      cases found with
      | none => rfl
      | some s =>
          obtain ⟨v, hv, hexpiry⟩ := h.current name s (secret_eq_ok.mp hfound)
          obtain ⟨value, hget, hdec⟩ := get_of_recordAt hv
          have hlasts : expiredRow C time (versionKey name s.currentVersion, value) = false := by
            unfold expiredRow
            rw [hdec, Option.any_some, hexpiry]
            rfl
          dsimp only
          unfold RedbStore.version RedbStore.lookup
          rw [hget, get_sweep nodeId h.versions_decode hget hlasts]

end Sweeps

/-- Sweeps are invisible to readers: to every reader of live versions that is not earlier, for every order of them, and
to every reader of a current version. -/
theorem sweeps_are_invisible (C : Codec) (nodeId : Nat) (t : Tables) :
    (∀ time name now, time ≤ now →
      RedbStore.liveVersions C name now (storeStep C nodeId t (.expireGraceVersions time)) =
        RedbStore.liveVersions C name now t) ∧
    (∀ (times : List Int64) latest, latest ∈ times → (∀ e ∈ times, e ≤ latest) →
      run (storeStep C nodeId) t (times.map .expireGraceVersions) =
        storeStep C nodeId t (.expireGraceVersions latest)) ∧
    (SecretInv C t → ∀ time name,
      RedbStore.currentVersion C name (storeStep C nodeId t (.expireGraceVersions time)) =
        RedbStore.currentVersion C name t) :=
  ⟨fun _ _ _ hle => liveVersions_sweep nodeId hle, fun _ _ hmem hle => run_sweeps nodeId t hmem hle,
    fun h time name => currentVersion_sweep nodeId time h name⟩

/-! ## The rows of a name -/

/-- The key of a version of the name. -/
def IsVersionKey (name key : String) : Prop :=
  nul ∉ name.toList ∧ ∃ version : Int32, 0 ≤ version.toInt ∧ key = versionKey name version

/-- The rows that the scan of a name takes. -/
def versionRows (name : String) (versions : Table String Bytes) : List (String × Bytes) :=
  versions.rows.filter fun row =>
    versionLower name ≤ row.1 && row.1 < versionUpper name && (versionFromKey name row.1).isSome

/-- The record of the row, if it has not expired. -/
def unexpired (C : Codec) (now : Int64) (row : String × Bytes) : Option VersionRecord :=
  (C.version.decode row.2).filter fun record => record.expiresAt.all (now < ·)

section Scans
variable {C : Codec} {t t' : Tables} {name : String}

/-- The range and the parser together accept the keys of the name's versions and no other. -/
theorem inScan_iff (name key : String) :
    (versionLower name ≤ key && key < versionUpper name && (versionFromKey name key).isSome) = true ↔
      IsVersionKey name key := by
  rw [Bool.and_eq_true, Bool.and_eq_true, decide_eq_true_iff, decide_eq_true_iff]
  constructor
  · rintro ⟨_, hparsed⟩
    obtain ⟨version, hversion⟩ := Option.isSome_iff_exists.mp hparsed
    obtain ⟨hkey, hnonneg⟩ := eq_versionKey_of_versionFromKey hversion
    exact ⟨nul_notMem_of_versionFromKey hversion, version, hnonneg, hkey⟩
  · rintro ⟨hname, version, hnonneg, rfl⟩
    refine ⟨⟨versionLower_le name version, versionKey_lt_versionUpper name version⟩, ?_⟩
    rw [versionFromKey_versionKey hname hnonneg]
    rfl

theorem mem_versionRows {versions : Table String Bytes} {row : String × Bytes} :
    row ∈ versionRows name versions ↔ row ∈ versions.rows ∧ IsVersionKey name row.1 := by
  rw [versionRows, List.mem_filter, inScan_iff]

theorem liveVersions_eq (h : Decodes C.version t.versions) (now : Int64) :
    RedbStore.liveVersions C name now t =
      .ok (((versionRows name t.versions).filterMap (unexpired C now)).mergeSort fun a b => b.version ≤ a.version) := by
  have hrows : ∀ row ∈ t.versions.rows.filter (fun row => versionLower name ≤ row.1 && row.1 < versionUpper name),
      (C.version.decode row.2).isSome := fun row hrow =>
    h row.1 row.2 (Table.mem_rows.mp (List.mem_of_mem_filter hrow))
  have hscan : (t.versions.rows.filter fun row => versionLower name ≤ row.1 && row.1 < versionUpper name).filterMap
      (liveRow C name now) = (versionRows name t.versions).filterMap (unexpired C now) := by
    rw [versionRows, List.filterMap_filter, List.filterMap_filter]
    congr 1
    funext row
    unfold liveRow unexpired
    cases versionFromKey name row.1 <;> simp
  unfold RedbStore.liveVersions
  rw [liveRows_eq hrows, hscan]

theorem deleteSecret_get (h : deleteSecret name t = (.ok (), t')) (key : String) (value : Bytes) :
    t'.versions.get key = some value ↔ t.versions.get key = some value ∧ ¬IsVersionKey name key := by
  obtain ⟨_, rfl⟩ := deleteSecret_ok h
  change (t.versions.removeWhere _).get key = some value ↔ _
  rw [Table.get_removeWhere, ← inScan_iff]
  split_ifs with hscan
  · exact iff_of_false nofun fun h => h.2 hscan
  · exact ⟨fun hget => ⟨hget, hscan⟩, fun h => h.1⟩

end Scans

/-- Whatever keys the table has, the reader and the deletion of a name take exactly the rows of its versions. -/
theorem version_scans_exact (C : Codec) (nodeId : Nat) (t : Tables) (name : String)
    (hdec : Decodes C.version t.versions) :
    (∀ row, row ∈ versionRows name t.versions ↔ row ∈ t.versions.rows ∧ IsVersionKey name row.1) ∧
    (versionRows name t.versions).Nodup ∧
    (∀ now, ∃ out, RedbStore.liveVersions C name now t = .ok out ∧
      out.Perm ((versionRows name t.versions).filterMap (unexpired C now)) ∧
      out.Pairwise fun a b => b.version ≤ a.version) ∧
    ∀ t', applyCommand C nodeId (.deleteSecret name) t = (.ok (), t') →
      (∀ key value, t'.versions.get key = some value ↔
        t.versions.get key = some value ∧ ¬IsVersionKey name key) ∧
      ∀ other, t'.secrets.get other = if name = other then none else t.secrets.get other := by
  refine ⟨fun row => mem_versionRows, ?_, fun now => ⟨_, liveVersions_eq hdec now, List.mergeSort_perm _ _, ?_⟩,
    fun t' hdelete => ⟨deleteSecret_get hdelete, fun other => ?_⟩⟩
  · refine (t.versions.sorted.filter _).imp fun {a b} hlt heq => ?_
    rw [heq] at hlt
    exact lt_irrefl _ hlt
  · refine (List.pairwise_mergeSort (fun a b c hab hbc => ?_) (fun a b => ?_) _).imp fun hab => of_decide_eq_true hab
    · exact decide_eq_true ((of_decide_eq_true hbc).trans (of_decide_eq_true hab))
    · rw [Bool.or_eq_true, decide_eq_true_iff, decide_eq_true_iff]
      exact le_total _ _
  · obtain ⟨_, rfl⟩ := deleteSecret_ok hdelete
    exact Table.get_remove _ _ _

/-- Versions of two names, and a key between those of `a` that no command writes. -/
def mixedVersions (C : Codec) : Table String Bytes :=
  ((Table.empty.insert (versionKey "a" 1) (C.version.encode (versionOf "a" 1))).insert (versionLower "a" ++ "x")
    (C.version.encode (versionOf "a" 2))).insert (versionKey "ab" 1) (C.version.encode (versionOf "ab" 1))

theorem mixed_versions_scanned : ∃ out,
    RedbStore.liveVersions jsonCodec "a" 0 { Tables.empty with versions := mixedVersions jsonCodec } = .ok out ∧
    out.Perm ((versionRows "a" (mixedVersions jsonCodec)).filterMap (unexpired jsonCodec 0)) ∧
    out.Pairwise fun a b => b.version ≤ a.version :=
  (version_scans_exact jsonCodec 1 { Tables.empty with versions := mixedVersions jsonCodec } "a"
    (decodes_insert (decodes_insert (decodes_insert decodes_empty _ _) _ _) _ _)).2.2.1 0

end HyperionVault
