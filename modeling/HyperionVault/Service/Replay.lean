import HyperionVault.Service.Exec
import HyperionVault.Service.Unwrapping

/-!
# Rows that were moved

Someone who can write to the database may copy a version row to another key. The associated data of a row
names the secret and the version it was sealed for; a reader compares it with the secret's name and with the
version number that the row itself declares, not with the number in the key.

* `SealedFor` : what `sealVersion` makes for a version of a name; `Copies` : a table of such rows, anywhere;
* `Obtains` : the rows that `getSecret` and `verify` open, with the keys they are stored under;
* `sealedFor_iff` : an opened row was sealed for the name, and for the version it declares;
* `opened_rows_sealed_iff` : it was sealed for its key exactly if it declares the key's version.
-/

namespace HyperionVault
open Lib

section Replay
variable (A : AppState)

/-- `sealVersion` made the record for this version of the name. A record that has been superseded since has
got an expiry. -/
def SealedFor (name : String) (number : Int32) (record : VersionRecord) : Prop :=
  ∃ payload d w x w' expiry, (sealVersion A name number payload d).exec A w = (.ok x, w') ∧
    record = { x.record with expiresAt := expiry }

/-- Every row is a copy of a sealed record. -/
def Copies (versions : Table String Bytes) : Prop :=
  ∀ key bytes, versions.get key = some bytes →
    ∃ record name number, A.codec.version.decode bytes = some record ∧ SealedFor A name number record

/-- A read of `name` opens the record stored under the key of version `number`. -/
inductive Obtains (t : Tables) (name : String) : Int32 → VersionRecord → Bytes → Prop where
  | get {secret : SecretRecord} {record : VersionRecord} {plaintext : Bytes}
      (found : RedbStore.currentVersion A.codec name t = .ok (some (secret, record)))
      (opened : openVersion A name record.version record = .ok plaintext) :
      Obtains t name secret.currentVersion record plaintext
  | verify {now : Int64} {live : List VersionRecord} {number : Int32} {record : VersionRecord} {plaintext : Bytes}
      (found : RedbStore.liveVersions A.codec name now t = .ok live) (listed : record ∈ live)
      (row : versionAt A.codec t (versionKey name number) = some record)
      (opened : openVersion A name record.version record = .ok plaintext) :
      Obtains t name number record plaintext

variable {A} {t : Tables} {name : String} {number : Int32} {record : VersionRecord} {plaintext : Bytes}
  {w w' : World}

theorem SealedFor.version (h : SealedFor A name number record) : record.version = number := by
  obtain ⟨payload, d, w, x, w', expiry, hseal, rfl⟩ := h
  exact (sealVersion_exec_ok hseal).1.version

theorem SealedFor.aad (h : SealedFor A name number record) : record.aad = aadFor name number := by
  obtain ⟨payload, d, w, x, w', expiry, hseal, rfl⟩ := h
  exact (sealVersion_exec_ok hseal).1.aad

theorem aad_of_openVersion (h : openVersion A name number record = .ok plaintext) :
    record.aad = aadFor name number := by
  by_contra haad
  rw [openVersion, if_pos haad] at h
  cases h

theorem Obtains.row (h : Obtains A t name number record plaintext) :
    versionAt A.codec t (versionKey name number) = some record := by
  cases h with
  | get found opened => exact (currentVersion_eq_ok.mp found).2
  | verify found listed row opened => exact row

theorem Obtains.opened (h : Obtains A t name number record plaintext) :
    openVersion A name record.version record = .ok plaintext := by
  cases h with
  | get found opened => exact opened
  | verify found listed row opened => exact opened

/-- A sealed record that opens for a name and the version it declares was sealed for that name. -/
theorem sealedFor_of_open {owner : String} {sealedAs : Int32} (hseal : SealedFor A owner sealedAs record)
    (hopen : openVersion A name record.version record = .ok plaintext) : SealedFor A name record.version record := by
  obtain ⟨rfl, hversion⟩ := aadFor_inj (hseal.aad.symm.trans (aad_of_openVersion hopen))
  rw [← hversion]
  exact hseal

/-- A row that a read opens was sealed for its key exactly if it declares the key's version. -/
theorem sealedFor_iff (hcopies : Copies A t.versions) (h : Obtains A t name number record plaintext) :
    SealedFor A name number record ↔ record.version = number := by
  refine ⟨SealedFor.version, ?_⟩
  rintro rfl
  obtain ⟨bytes, hget, hdec⟩ := get_of_recordAt h.row
  obtain ⟨record', owner, sealedAs, hdec', hseal⟩ := hcopies _ bytes hget
  cases hdec.symm.trans hdec'
  exact sealedFor_of_open hseal h.opened

/-! ## What the two calls open -/

/-- A value that `getSecret` returns is what it found in the row under the current version's key. -/
theorem getSecret_obtains {clientIp : String} {d : Draws} {value : SecretValue}
    (h : (getSecret A name clientIp d).exec A w = (.ok value, w')) :
    ∃ number record plaintext format, Obtains A w.tables name number record plaintext ∧
      value.version = record.version ∧ decodePayload A format plaintext = .ok value.payload := by
  obtain ⟨_, w₁, hname, h⟩ := Call.exec_bind_eq_ok h
  obtain ⟨_, rfl⟩ := Call.ensure_exec_ok hname
  obtain ⟨found, w₂, hread, h⟩ := Call.exec_bind_eq_ok h
  obtain ⟨hfound, rfl⟩ := Call.read_exec_ok hread
  cases found with
  | none =>
      obtain ⟨_, w₃, _, h⟩ := Call.exec_bind_eq_ok h
      cases h
  | some pair =>
      obtain ⟨secret, record⟩ := pair
      obtain ⟨value', w₃, hvalue, h⟩ := Call.exec_bind_eq_ok h
      obtain ⟨hvalue', rfl⟩ := Call.ofExcept_exec_ok hvalue
      obtain ⟨_, w₄, _, h⟩ := Call.exec_bind_eq_ok h
      cases h
      obtain ⟨plaintext, hopen, hpayload⟩ := bind_eq_ok.mp hvalue'
      obtain ⟨payload, hdecode, hresult⟩ := bind_eq_ok.mp hpayload
      cases hresult
      exact ⟨secret.currentVersion, record, plaintext, secret.format, .get hfound hopen, rfl, hdecode⟩

theorem verifyVersions_some {format : SecretFormat} {presented : String} {versions : List VersionRecord}
    (h : verifyVersions A name format presented versions = .ok (some number)) :
    ∃ record ∈ versions, ∃ plaintext, record.version = number ∧
      openVersion A name record.version record = .ok plaintext ∧
        presentedMatches A format presented plaintext = true := by
  induction versions with
  | nil => cases h
  | cons record rest ih =>
      obtain ⟨plaintext, hopen, h⟩ := bind_eq_ok.mp h
      split_ifs at h with hmatch
      · cases h
        exact ⟨record, List.mem_cons_self, plaintext, rfl, hopen, hmatch⟩
      · obtain ⟨record', hmem, hrecord⟩ := ih h
        exact ⟨record', List.mem_cons_of_mem _ hmem, hrecord⟩

theorem verifyInvalid_exec_ok {cfg : AuthConfig} {clientIp : String} {peer : IpAddr} {d : Draws} {recordAt : Int64}
    {answer : VerifyResponse} (h : (verifyInvalid A cfg name clientIp peer d recordAt).exec A w = (.ok answer, w')) :
    answer = ⟨false, none⟩ := by
  obtain ⟨_, w₁, _, h⟩ := Call.exec_bind_eq_ok h
  obtain ⟨_, w₂, _, h⟩ := Call.exec_bind_eq_ok h
  cases h
  rfl

/-- A value that `verify` accepts is what it found in the row of a live version. -/
theorem verify_obtains {cfg : AuthConfig} {clientIp : String} {peer : IpAddr} {presented : String} {d : Draws}
    {checkAt recordAt : Int64} {answer : VerifyResponse}
    (h : (verify A cfg name clientIp peer presented d checkAt recordAt).exec A w = (.ok answer, w'))
    (hvalid : answer.valid = true) :
    ∃ number record plaintext format, Obtains A w.tables name number record plaintext ∧
      answer.version = some record.version ∧ presentedMatches A format presented plaintext = true := by
  obtain ⟨_, w₁, hname, h⟩ := Call.exec_bind_eq_ok h
  obtain ⟨_, rfl⟩ := Call.ensure_exec_ok hname
  obtain ⟨_, w₂, hcheck, h⟩ := Call.exec_bind_eq_ok h
  obtain rfl := checkKey_exec_ok hcheck
  have hnot {w₁ w₂ : World} (h : (verifyInvalid A cfg name clientIp peer d recordAt).exec A w₁ = (.ok answer, w₂)) :
      False := by
    rw [verifyInvalid_exec_ok h] at hvalid
    cases hvalid
  split_ifs at h
  · exact (hnot h).elim
  · obtain ⟨found, w₃, hread, h⟩ := Call.exec_bind_eq_ok h
    obtain ⟨_, rfl⟩ := Call.read_exec_ok hread
    cases found with
    | none => exact (hnot h).elim
    | some secret =>
        obtain ⟨live, w₄, hread', h⟩ := Call.exec_bind_eq_ok h
        obtain ⟨hlive, rfl⟩ := Call.read_exec_ok hread'
        obtain ⟨result, w₅, hresult, h⟩ := Call.exec_bind_eq_ok h
        obtain ⟨hversions, rfl⟩ := Call.ofExcept_exec_ok hresult
        cases result with
        | none => exact (hnot h).elim
        | some version =>
            obtain ⟨_, w₆, _, h⟩ := Call.exec_bind_eq_ok h
            cases h
            obtain ⟨record, hmem, plaintext, rfl, hopen, hmatch⟩ := verifyVersions_some hversions
            obtain ⟨number, hrow⟩ := liveVersions_row hlive hmem
            exact ⟨number, record, plaintext, secret.format, .verify hlive hmem hrow hopen, rfl, hmatch⟩

end Replay

/-! ## A row in the place of a later one -/

/-- The record of a secret that has got a second version. -/
def secondA : SecretRecord := { newSecretRecord (opaqueRequest "a" "old") .opaqueValue 0 0 with currentVersion := 2 }

/-- What was sealed for version 1 of the secret. -/
def firstA (C : Codec) : Sealing := sealingOf (nodeWith C) "a" 1 (.value "old") 0 1

/-- The first version's row, stored under the key of version `number`. -/
def movedWorld (C : Codec) (number : Int32) : World :=
  { freshWorld with tables := { Tables.empty with
      secrets := Table.empty.insert "a" (C.secret.encode { secondA with currentVersion := number })
      versions := Table.empty.insert (versionKey "a" number) (C.version.encode (firstA C).record) } }

section Moved
variable (C : Codec) (number : Int32)

theorem sealedFor_firstA : SealedFor (nodeWith C) "a" 1 (firstA C).record := by
  have hseal : (sealVersion (nodeWith C) "a" 1 (.value "old") (drawsOf 0 1 "")).Runs (nodeWith C) (fun _ _ => True) 2
      freshWorld (firstA C) freshWorld := seal_runs trivial trivial rfl
  exact ⟨_, _, freshWorld, firstA C, freshWorld, none, Proc.exec_of_reaches hseal, rfl⟩

theorem movedWorld_copies : Copies (nodeWith C) (movedWorld C number).tables.versions := by
  intro key bytes hget
  rw [movedWorld, Table.get_insert] at hget
  split_ifs at hget
  · cases hget
    exact ⟨(firstA C).record, "a", 1, C.version.decode_encode _, sealedFor_firstA C⟩
  · cases hget

theorem openVersion_firstA : openVersion (nodeWith C) "a" 1 (firstA C).record = .ok (utf8 "old") :=
  openVersion_of_unwraps (valid_sealingOf C "a" 1 _ 0 1)
    ((unwrapping (nodeWith C)).sealed (valid_sealingOf C "a" 1 _ 0 1))

theorem movedWorld_currentVersion : RedbStore.currentVersion C "a" (movedWorld C number).tables =
    .ok (some ({ secondA with currentVersion := number }, (firstA C).record)) :=
  currentVersion_eq_ok.mpr ⟨recordAt_insert_self .., recordAt_insert_self ..⟩

theorem movedWorld_obtains :
    Obtains (nodeWith C) (movedWorld C number).tables "a" number (firstA C).record (utf8 "old") := by
  have h := Obtains.get (A := nodeWith C) (movedWorld_currentVersion C number) (openVersion_firstA C)
  exact h

theorem movedWorld_getSecret : ∃ value w', (getSecret (nodeWith C) "a" "127.0.0.1" (drawsOf 0 2 "")).exec (nodeWith C)
    (movedWorld C number) = (.ok value, w') ∧ value.payload = .value "old" := by
  have hvalue : readVersion (nodeWith C) "a" { secondA with currentVersion := number } (firstA C).record =
      .ok ⟨"a", .manual, 1, .value "old", 0⟩ := by
    refine bind_eq_ok.mpr ⟨utf8 "old", openVersion_firstA C, ?_⟩
    exact bind_eq_ok.mpr ⟨.value "old", decodePayload_bytes (nodeWith C) (.value "old"), rfl⟩
  obtain ⟨w', hw'⟩ := getSecret_exec "127.0.0.1" (drawsOf 0 2 "") (by decide)
    (movedWorld_currentVersion C number) hvalue
  exact ⟨_, w', hw', rfl⟩

end Moved

/-- Over rows that are copies of sealed records under any keys, a row that a read of `name` opens under the key
of version `number` was sealed for that name and version exactly if it declares that version. What the two
calls return comes from such rows. -/
theorem opened_rows_sealed_iff (A : AppState) (w : World) (hcopies : Copies A w.tables.versions) (name : String) :
    (∀ number record plaintext, Obtains A w.tables name number record plaintext →
      (SealedFor A name number record ↔ record.version = number)) ∧
    (∀ clientIp d value w', (getSecret A name clientIp d).exec A w = (.ok value, w') →
      ∃ number record plaintext format, Obtains A w.tables name number record plaintext ∧
        value.version = record.version ∧ decodePayload A format plaintext = .ok value.payload) ∧
    (∀ cfg clientIp peer presented d checkAt recordAt answer w',
      (verify A cfg name clientIp peer presented d checkAt recordAt).exec A w = (.ok answer, w') →
      answer.valid = true → ∃ number record plaintext format, Obtains A w.tables name number record plaintext ∧
        answer.version = some record.version ∧ presentedMatches A format presented plaintext = true) :=
  ⟨fun _ _ _ h => sealedFor_iff hcopies h, fun _ _ _ _ h => getSecret_obtains h,
    fun _ _ _ _ _ _ _ _ _ h hvalid => verify_obtains h hvalid⟩

/-- A row that stands where it was written. -/
theorem unmoved_row_is_sealed_for_key :
    Obtains (nodeWith jsonCodec) (movedWorld jsonCodec 1).tables "a" 1 (firstA jsonCodec).record (utf8 "old") ∧
      SealedFor (nodeWith jsonCodec) "a" 1 (firstA jsonCodec).record :=
  ⟨movedWorld_obtains jsonCodec 1,
    ((opened_rows_sealed_iff (nodeWith jsonCodec) (movedWorld jsonCodec 1) (movedWorld_copies jsonCodec 1) "a").1 1 _ _
      (movedWorld_obtains jsonCodec 1)).mpr rfl⟩

/-- The first version's row over the second's: the old value is read as the current one. -/
theorem old_row_read_as_current :
    Copies (nodeWith jsonCodec) (movedWorld jsonCodec 2).tables.versions ∧
      Obtains (nodeWith jsonCodec) (movedWorld jsonCodec 2).tables "a" 2 (firstA jsonCodec).record (utf8 "old") ∧
      (∃ value w', (getSecret (nodeWith jsonCodec) "a" "127.0.0.1" (drawsOf 0 2 "")).exec (nodeWith jsonCodec)
        (movedWorld jsonCodec 2) = (.ok value, w') ∧ value.payload = .value "old") ∧
      ¬ SealedFor (nodeWith jsonCodec) "a" 2 (firstA jsonCodec).record := by
  refine ⟨movedWorld_copies jsonCodec 2, movedWorld_obtains jsonCodec 2, movedWorld_getSecret jsonCodec 2, fun h => ?_⟩
  exact absurd h.version (show (1 : Int32) ≠ 2 by decide)

end HyperionVault
