import HyperionVault.Store.Invariant

/-!
# Live versions

In a store whose secrets and versions belong together the scan for live versions never fails. It finds every
version of the name that has not expired, each once, the newest first. A list of the secrets has all of them.

* `liveRow`, `liveRows_eq` : the scan as a filter of the rows;
* `liveVersions_total`, `mem_liveVersions` : what it returns;
* `mem_listSecrets` : the list of the secrets.
-/

namespace HyperionVault
open Lib

/-- The record of a row, if it is an unexpired version of the name. -/
def liveRow (C : Codec) (name : String) (now : Int64) (row : String × Bytes) : Option VersionRecord :=
  if (versionFromKey name row.1).isNone then none
  else (C.version.decode row.2).filter fun record => record.expiresAt.all (now < ·)

section Live
variable {C : Codec} {t : Tables} {name : String} {now : Int64}

theorem liveRow_eq_some {row : String × Bytes} {v : VersionRecord} :
    liveRow C name now row = some v ↔
      (versionFromKey name row.1).isSome ∧ C.version.decode row.2 = some v ∧ v.expiresAt.all (now < ·) = true := by
  unfold liveRow
  cases versionFromKey name row.1 with
  | none => simp
  | some number => simp [Option.filter_eq_some_iff]

/-- Where every row holds a record the scan does not fail. -/
theorem liveRows_eq {rows : List (String × Bytes)} (h : ∀ row ∈ rows, (C.version.decode row.2).isSome) :
    RedbStore.liveRows C name now rows = .ok (rows.filterMap (liveRow C name now)) := by
  induction rows with
  | nil => rfl
  | cons row rest ih =>
      obtain ⟨key, value⟩ := row
      obtain ⟨record, hrecord⟩ := Option.isSome_iff_exists.mp (h (key, value) List.mem_cons_self)
      have hrest := ih fun row hrow => h row (List.mem_cons_of_mem _ hrow)
      have hrow : decodeRow C.version value = .ok record := decodeRow_ok.mpr hrecord
      unfold RedbStore.liveRows
      by_cases hkey : (versionFromKey name key).isNone = true
      · have hnone : liveRow C name now (key, value) = none := if_pos hkey
        rw [if_pos hkey, hrest, List.filterMap_cons_none hnone]
      · rw [if_neg hkey, hrow, hrest]
        dsimp only
        have hlive : liveRow C name now (key, value) =
            if record.expiresAt.all (now < ·) then some record else none := by
          unfold liveRow
          rw [if_neg hkey, hrecord]
          rfl
        split_ifs with hexpiry
        · rw [if_pos hexpiry] at hlive
          rw [List.filterMap_cons_some hlive]
        · rw [if_neg hexpiry] at hlive
          rw [List.filterMap_cons_none hlive]

/-- A row that the scan finds is the row of a version of the name. -/
theorem key_of_liveRow (h : SecretInv C t) {row : String × Bytes} {v : VersionRecord} (hrow : row ∈ t.versions.rows)
    (hlive : liveRow C name now row = some v) :
    isValidSecretName name = true ∧ 1 ≤ v.version ∧ row.1 = versionKey name v.version := by
  obtain ⟨hkey, hdec, _⟩ := liveRow_eq_some.mp hlive
  obtain ⟨number, hnumber⟩ := Option.isSome_iff_exists.mp hkey
  obtain ⟨owner, s, howner, hs, hone, _⟩ := h.owned row.1 v (recordAt_of_get (Table.mem_rows.mp hrow) hdec)
  have hvalid := (h.valid owner s hs).1
  rw [howner] at hnumber
  obtain ⟨rfl, _⟩ := eq_of_versionFromKey (nul_notMem_of_isValidSecretName hvalid) (toInt_nonneg_of_one_le hone) hnumber
  exact ⟨hvalid, hone, howner⟩

theorem mem_liveRows (h : SecretInv C t) {v : VersionRecord} :
    (∃ row ∈ t.versions.rows.filter (fun row => versionLower name ≤ row.1 && row.1 < versionUpper name),
      liveRow C name now row = some v) ↔
    isValidSecretName name = true ∧ 1 ≤ v.version ∧ versionAt C t (versionKey name v.version) = some v ∧
      v.expiresAt.all (now < ·) = true := by
  constructor
  · rintro ⟨row, hmem, hlive⟩
    have hrow := List.mem_of_mem_filter hmem
    obtain ⟨hname, hone, hkey⟩ := key_of_liveRow h hrow hlive
    obtain ⟨_, hdec, hexpiry⟩ := liveRow_eq_some.mp hlive
    refine ⟨hname, hone, ?_, hexpiry⟩
    rw [← hkey]
    exact recordAt_of_get (Table.mem_rows.mp hrow) hdec
  · rintro ⟨hname, hone, hv, hexpiry⟩
    obtain ⟨bytes, hget, hdec⟩ := get_of_recordAt hv
    have hnumber := versionFromKey_versionKey (nul_notMem_of_isValidSecretName hname) (toInt_nonneg_of_one_le hone)
    refine ⟨(versionKey name v.version, bytes), List.mem_filter.mpr ⟨Table.mem_rows.mpr hget, ?_⟩, ?_⟩
    · rw [Bool.and_eq_true, decide_eq_true_iff, decide_eq_true_iff]
      exact ⟨versionLower_le name v.version, versionKey_lt_versionUpper name v.version⟩
    · exact liveRow_eq_some.mpr ⟨by rw [hnumber]; rfl, hdec, hexpiry⟩

/-- The scan returns the unexpired versions of the name, the newest first. -/
theorem liveVersions_total (h : SecretInv C t) (name : String) (now : Int64) :
    ∃ out, RedbStore.liveVersions C name now t = .ok out ∧ out.Pairwise (fun a b => b.version < a.version) ∧
      ∀ v, v ∈ out ↔ isValidSecretName name = true ∧ 1 ≤ v.version ∧
        versionAt C t (versionKey name v.version) = some v ∧ v.expiresAt.all (now < ·) = true := by
  let rows := t.versions.rows.filter fun row => versionLower name ≤ row.1 && row.1 < versionUpper name
  have hdec : ∀ row ∈ rows, (C.version.decode row.2).isSome := fun row hrow =>
    h.versions_decode row.1 row.2 (Table.mem_rows.mp (List.mem_of_mem_filter hrow))
  -- two rows have different keys, so the versions found in them have different numbers
  have hdistinct : (rows.filterMap (liveRow C name now)).Pairwise fun a b => a.version ≠ b.version := by
    rw [List.pairwise_filterMap]
    refine (t.versions.sorted.filter _).imp_of_mem fun {row row'} hrow hrow' hlt v hv v' hv' heq => ?_
    have hkey := (key_of_liveRow h (List.mem_of_mem_filter hrow) hv).2.2
    have hkey' := (key_of_liveRow h (List.mem_of_mem_filter hrow') hv').2.2
    rw [hkey, hkey', heq] at hlt
    exact lt_irrefl _ hlt
  have hsorted := @List.pairwise_mergeSort VersionRecord (fun a b => decide (b.version ≤ a.version))
    (fun a b c hab hbc => by
      rw [decide_eq_true_iff] at hab hbc ⊢
      exact hbc.trans hab)
    (fun a b => by
      rw [Bool.or_eq_true, decide_eq_true_iff, decide_eq_true_iff]
      exact le_total _ _) (rows.filterMap (liveRow C name now))
  refine ⟨(rows.filterMap (liveRow C name now)).mergeSort fun a b => b.version ≤ a.version, ?_, ?_, fun v => ?_⟩
  · unfold RedbStore.liveVersions
    rw [liveRows_eq hdec]
  · have hperm := List.mergeSort_perm (rows.filterMap (liveRow C name now)) fun a b => b.version ≤ a.version
    have hne := hdistinct.perm hperm.symm fun hab => hab.symm
    refine (hsorted.and hne).imp fun {a b} hab => ?_
    exact lt_of_le_of_ne (of_decide_eq_true hab.1) (Ne.symm hab.2)
  · rw [List.mem_mergeSort, List.mem_filterMap]
    exact mem_liveRows h

theorem mem_liveVersions (h : SecretInv C t) {out : List VersionRecord}
    (hlive : RedbStore.liveVersions C name now t = .ok out) {v : VersionRecord} :
    v ∈ out ↔ isValidSecretName name = true ∧ 1 ≤ v.version ∧
      versionAt C t (versionKey name v.version) = some v ∧ v.expiresAt.all (now < ·) = true := by
  obtain ⟨out', hout', _, hmem⟩ := liveVersions_total h name now
  rw [hlive] at hout'
  cases hout'
  exact hmem v

/-! ## The list of the secrets -/

theorem mem_allRows {K α : Type} {S : Serde α} {rows : List (K × Bytes)} {out : List α}
    (h : RedbStore.allRows S rows = .ok out) {key : K} {value : Bytes} {a : α} (hmem : (key, value) ∈ rows)
    (hdec : S.decode value = some a) : a ∈ out := by
  induction rows generalizing out with
  | nil => cases hmem
  | cons row rest ih =>
      obtain ⟨key', value'⟩ := row
      unfold RedbStore.allRows at h
      split at h
      · cases h
      · next a' hrow =>
          split at h
          · cases h
          · next out' hrest =>
              cases h
              rcases List.mem_cons.mp hmem with heq | hmem
              · cases heq
                rw [decodeRow_ok.mpr hdec] at hrow
                cases hrow
                exact List.mem_cons_self
              · exact List.mem_cons_of_mem _ (ih hrest hmem)

theorem mem_listSecrets {out : List SecretRecord} (h : RedbStore.listSecrets C t = .ok out) {s : SecretRecord}
    (hs : secretAt C t name = some s) : s ∈ out := by
  unfold RedbStore.listSecrets at h
  split at h
  · cases h
  · next rows hrows =>
      cases h
      obtain ⟨bytes, hget, hdec⟩ := get_of_recordAt hs
      exact List.mem_mergeSort.mpr (mem_allRows hrows (Table.mem_rows.mpr hget) hdec)

end Live

end HyperionVault
