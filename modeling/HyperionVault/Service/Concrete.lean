import HyperionVault.Service.Alone
import HyperionVault.Service.Prepared
import HyperionVault.Store.Json

/-!
# A node for concrete runs

A node with a KMS that hands out the wrapped key as it is and an AEAD that writes the key before the
plaintext. Both keep the laws of the real ones, and opening under another key fails. The codec stays open, so
that runs are computed with records and not with their encodings.

* `nodeWith` : the node, with any codec;
* `freshWorld` : an empty store and a target that answers.
-/

namespace HyperionVault
open Lib

def UserPass.json : Json UserPass :=
  (Json.object (Json.string.field "username" |>.and <| Json.string.field "password")).iso
    (fun login => (login.username, login.password))
    (fun (username, password) => some ⟨username, password⟩)
    (fun _ => rfl)

/-- Data key number `draw`, wrapped as itself. -/
def plainKms : Kms where
  generateDataKey _ draw _ :=
    let dek := List.replicate 32 (UInt8.ofNat draw)
    .ok { plaintext := dek, wrapped := dek, keyId := "key" }
  decryptDataKey wrapped _ _ := .ok wrapped
  reencryptDataKey _ _ wrapped keyId _ := .ok (wrapped, keyId)
  decrypt_generate := by
    intro material draw context key h
    cases h
    rfl
  decrypt_reencrypt := by
    intro material draw wrapped keyId context wrapped' keyId' dek h hdek
    cases h
    exact hdek

/-- The key, then the plaintext. -/
def plainAead : Aead where
  sealWith dek _ _ plaintext := some (dek ++ plaintext)
  openWith dek _ _ ciphertext := if ciphertext.take dek.length = dek then some (ciphertext.drop dek.length) else none
  open_seal := by
    intro dek nonce aad plaintext ciphertext h
    cases h
    simp

def nodeWith (C : Codec) : AppState where
  codec := C
  userpass := UserPass.json.serde
  kms := plainKms
  aead := plainAead
  pgTargets := ⟨[("db", defaultPgPort)]⟩
  nodeId := 1

def freshWorld : World where
  tables := .empty
  material := 0
  rewrapBusy := fun _ => false
  passwords := fun _ => none
  network := fun _ => .primary
  attempts := 0
  incarnation := fun _ => 0
  sealings := fun _ _ _ => none
  accepted := []

/-- A call at time `now` that gets data key number `key` and the token `token`. -/
def drawsOf (now : Int64) (key : Nat) (token : String) : Draws where
  now := now
  auditAt := now
  dataKey := key
  nonce := ⟨List.replicate nonceLen 0, rfl⟩
  token := token

/-- What is sealed with data key number `key`. -/
def sealingOf (A : AppState) (name : String) (number : Int32) (payload : Payload) (now : Int64)
    (key : Nat) : Sealing where
  record := {
    version := number
    kmsKeyId := "key"
    wrappedDek := List.replicate 32 (UInt8.ofNat key)
    nonce := List.replicate nonceLen 0
    ciphertext := List.replicate 32 (UInt8.ofNat key) ++ payload.bytes A
    aad := aadFor name number
    createdAt := now
    expiresAt := none
    wrappedRotationAt := some 0 }
  dek := List.replicate 32 (UInt8.ofNat key)
  payload := payload

/-- A manual secret with one value. -/
def opaqueRequest (name value : String) : CreateSecretRequest where
  name := name
  kind := .manual
  value := some value
  username := none
  password := none
  description := none
  rotationIntervalSecs := none
  gracePeriodSecs := none
  target := none

/-- The tables of a store of one secret with one version. -/
def oneSecret (C : Codec) (s : SecretRecord) (v : VersionRecord) : Tables :=
  { Tables.empty with
    secrets := Table.empty.insert s.name (C.secret.encode s)
    versions := Table.empty.insert (versionKey s.name v.version) (C.version.encode v) }

/-- Whether the operation depends on something that was read before. -/
def Op.isBased : Op → Bool
  | .read | .kms | .busy .. | .submit _ .nothing _ => false
  | _ => true

section Runs
variable {C : Codec} {K : World → Op → Prop} {w : World}

theorem seal_runs {name : String} {number : Int32} {payload : Payload} {now : Int64} {key : Nat} {token : String}
    (hkms : K w .kms) (hread : K w .read) (hstate : w.tables.kmsRewrap = .empty) :
    (sealVersion (nodeWith C) name number payload (drawsOf now key token)).Runs (nodeWith C) K 2 w
      (sealingOf (nodeWith C) name number payload now key) w := by
  have hkey : (nodeWith C).kms.generateDataKey w.material (drawsOf now key token).dataKey (kmsContext name number) =
      .ok ⟨List.replicate 32 (UInt8.ofNat key), List.replicate 32 (UInt8.ofNat key), "key"⟩ := rfl
  have hseal : (nodeWith C).aead.sealWith (List.replicate 32 (UInt8.ofNat key)) (drawsOf now key token).nonce
      (aadFor name number) (payload.bytes (nodeWith C)) =
      some (List.replicate 32 (UInt8.ofNat key) ++ payload.bytes (nodeWith C)) := rfl
  exact sealVersion_runs hkms hread hkey hseal hstate

theorem valid_sealingOf (C : Codec) (name : String) (number : Int32) (payload : Payload) (now : Int64) (key : Nat) :
    (sealingOf (nodeWith C) name number payload now key).Valid (nodeWith C) name number where
  version := rfl
  aad := rfl
  unexpired := rfl
  unwraps := rfl
  sealed := ⟨⟨List.replicate nonceLen 0, rfl⟩, rfl, rfl⟩

/-- A create call up to its command. -/
theorem create_gets (actor : String) (now : Int64) (key : Nat) {token : String} {req : CreateSecretRequest}
    {grace : Int64} {payload : Payload} (hcheck : checkCreate (nodeWith C) req token = .ok (grace, payload))
    (hname : isValidSecretName req.name = true) (hfresh : w.tables.secrets.get req.name = none)
    (hstate : w.tables.kmsRewrap = .empty) (hK : ∀ op, op.isBased = false → K w op) :
    (createSecretCall (nodeWith C) actor req (drawsOf now key token)).Gets (nodeWith C) K 3 w
      { w.withSealing req.name 1 (some (sealingOf (nodeWith C) req.name 1 payload now key)) with
        tables := { w.tables with
          secrets := w.tables.secrets.insert req.name
            (C.secret.encode (newSecretRecord req payload.format grace now))
          versions := w.tables.versions.insert (versionKey req.name 1)
            (C.version.encode (sealingOf (nodeWith C) req.name 1 payload now key).record) } } := by
  have hone : (1 : Int32) ≤ 1 := le_refl 1
  refine gets_bind (n := 0) (m := 3) (ofExcept_runs hcheck) ?_
  refine gets_bind (n := 2) (m := 1) (seal_runs (hK _ rfl) (hK _ rfl) hstate) ?_
  exact gets_bind_left (gets_of_runs (submit_runs (hK _ rfl) (createSecret_eq hname hone hfresh)))

/-- A delete call up to its command. -/
theorem delete_gets (A : AppState) (actor : String) (d : Draws) {name : String}
    (hsome : (w.tables.secrets.get name).isSome) (hK : K w (.submit (.deleteSecret name) .nothing none)) :
    (deleteSecretCall A actor name d).Gets A K 1 w { w with
      incarnation := Function.update w.incarnation name (w.incarnation name + 1)
      tables := { w.tables with
        secrets := w.tables.secrets.remove name
        versions := w.tables.versions.removeAll (ownVersionKeys name w.tables.versions) } } :=
  gets_bind_left (gets_of_runs (submit_runs hK (deleteSecret_eq hsome)))

end Runs

/-! ## Stores of one row -/

section OneRow
variable {C : Codec} {name : String} {bytes : Bytes}

theorem ownVersionKeys_single {number : Int32} (hname : isValidSecretName name = true) (hnumber : 1 ≤ number) :
    ownVersionKeys name (Table.empty.insert (versionKey name number) bytes) = [versionKey name number] := by
  have hnul := nul_notMem_of_isValidSecretName hname
  have hkeys : (Table.empty.insert (versionKey name number) bytes).keys = [versionKey name number] := rfl
  rw [ownVersionKeys, hkeys, List.filter_cons_of_pos, List.filter_nil]
  rw [decide_eq_true (versionLower_le name number), decide_eq_true (versionKey_lt_versionUpper name number),
    versionFromKey_versionKey hnul (toInt_nonneg_of_one_le hnumber)]
  rfl

theorem removeAll_single {K V : Type} [LinearOrder K] (k : K) (v : V) :
    ((Table.empty : Table K V).insert k v).removeAll [k] = .empty := by
  apply Table.ext_get
  intro k'
  rw [Table.get_removeAll, Table.get_insert]
  by_cases hk : k' = k
  · simp [hk]
  · simp [hk, Ne.symm hk]

theorem remove_single {K V : Type} [LinearOrder K] (k : K) (v : V) :
    ((Table.empty : Table K V).insert k v).remove k = .empty := removeAll_single k v

theorem listSecrets_single {t : Tables} {s : SecretRecord}
    (h : t.secrets = Table.empty.insert name (C.secret.encode s)) : RedbStore.listSecrets C t = .ok [s] := by
  have hrows : (Table.empty.insert name (C.secret.encode s)).rows = [(name, C.secret.encode s)] := rfl
  simp [RedbStore.listSecrets, h, hrows, RedbStore.allRows, decodeRow, C.secret.decode_encode]

theorem liveVersions_single {t : Tables} {v : VersionRecord} {now : Int64} (hname : isValidSecretName name = true)
    (hnumber : 1 ≤ v.version) (hnone : v.expiresAt = none)
    (h : t.versions = Table.empty.insert (versionKey name v.version) (C.version.encode v)) :
    RedbStore.liveVersions C name now t = .ok [v] := by
  have hnul := nul_notMem_of_isValidSecretName hname
  have hrows : (Table.empty.insert (versionKey name v.version) (C.version.encode v)).rows =
      [(versionKey name v.version, C.version.encode v)] := rfl
  have hlive : RedbStore.liveRows C name now [(versionKey name v.version, C.version.encode v)] = .ok [v] := by
    simp [RedbStore.liveRows, versionFromKey_versionKey hnul (toInt_nonneg_of_one_le hnumber), decodeRow,
      C.version.decode_encode, hnone]
  rw [RedbStore.liveVersions, h, hrows, List.filter_cons_of_pos, List.filter_nil, hlive]
  · simp
  · rw [decide_eq_true (versionLower_le name v.version), decide_eq_true (versionKey_lt_versionUpper name v.version)]
    rfl

end OneRow

section OneSecret
variable {C : Codec} {K : World → Op → Prop} {w : World}

/-- The first secret of an empty store is created. -/
theorem create_one (actor : String) (now : Int64) (key : Nat) {token : String} {req : CreateSecretRequest}
    {grace : Int64} {payload : Payload} (hcheck : checkCreate (nodeWith C) req token = .ok (grace, payload))
    (hname : isValidSecretName req.name = true) (hempty : w.tables = .empty)
    (hK : ∀ op, op.isBased = false → K w op) :
    (createSecretCall (nodeWith C) actor req (drawsOf now key token)).Gets (nodeWith C) K 3 w
      { w.withSealing req.name 1 (some (sealingOf (nodeWith C) req.name 1 payload now key)) with
        tables := oneSecret C (newSecretRecord req payload.format grace now)
          (sealingOf (nodeWith C) req.name 1 payload now key).record } := by
  have hfresh : w.tables.secrets.get req.name = none := by
    rw [hempty]
    rfl
  have hstate : w.tables.kmsRewrap = .empty := by
    rw [hempty]
    rfl
  have h := create_gets actor now key hcheck hname hfresh hstate hK
  rw [hempty] at h
  exact h

/-- The only secret of a store is deleted. -/
theorem delete_one (A : AppState) (actor : String) (d : Draws) {s : SecretRecord} {v : VersionRecord}
    (hname : isValidSecretName s.name = true) (hnumber : 1 ≤ v.version) (htables : w.tables = oneSecret C s v)
    (hK : K w (.submit (.deleteSecret s.name) .nothing none)) :
    (deleteSecretCall A actor s.name d).Gets A K 1 w { w with
      incarnation := Function.update w.incarnation s.name (w.incarnation s.name + 1), tables := .empty } := by
  have hsome : (w.tables.secrets.get s.name).isSome := by
    rw [htables, oneSecret, Table.get_insert_self]
    rfl
  have h := delete_gets A actor d hsome hK
  rw [htables, oneSecret, ownVersionKeys_single hname hnumber, removeAll_single, remove_single] at h
  exact h

end OneSecret

end HyperionVault
