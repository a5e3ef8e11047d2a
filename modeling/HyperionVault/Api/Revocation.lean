import HyperionVault.Api.Guards
import HyperionVault.Raft.Node
import HyperionVault.Service.Concrete
import HyperionVault.Service.Exec
import HyperionVault.Store.Roles
import HyperionVault.Store.Startup

/-!
# Revoked tokens

A token is two rows: its record under its fingerprint, and its fingerprint under its name. Once the record has
been revoked, no command but a restore replaces either row, and starting on the database with a bootstrap
token adds a token only under a fingerprint and a name that are free.

* `VaultEvent`, `vaultStep` : commands on either path, and restarts;
* `Revoked` : both rows of a revoked token are in place; `revoked_step` : they stay there;
* `revocation_is_permanent`.
-/

namespace HyperionVault
open Lib

inductive VaultEvent where
  | command (arrival : Arrival)
  /-- The process starts on the database, with or without a bootstrap token. -/
  | restart (bootstrap : Option String) (now : Int64)

def VaultEvent.isRestore : VaultEvent → Bool
  | .command arrival =>
      match arrival.command with
      | .restoreDatabase _ => true
      | _ => false
  | .restart .. => false

def vaultStep (C : Codec) (cfg : AuthConfig) (nodeId : Nat) (t : Tables) : VaultEvent → Tables
  | .command arrival => arrive C nodeId t arrival
  | .restart none _ => RedbStore.seedAdminRole C t
  | .restart (some token) now => (seedBootstrap C nodeId (cfg.fingerprint token) now (RedbStore.seedAdminRole C t)).2

/-- The name leads to the fingerprint, and the record there is revoked. -/
structure Revoked (C : Codec) (name : String) (fingerprint : Bytes) (t : Tables) : Prop where
  index : t.tokensByName.get name = some fingerprint
  record : ∃ token, recordAt C.token t.tokens fingerprint = some token ∧ token.revokedAt.isSome = true

section Steps
variable {C : Codec} {nodeId : Nat} {name : String} {fingerprint : Bytes} {t t' : Tables}

theorem revoked_congr (h : Revoked C name fingerprint t) (htokens : t'.tokens = t.tokens)
    (hnames : t'.tokensByName = t.tokensByName) : Revoked C name fingerprint t' :=
  ⟨hnames ▸ h.index, htokens ▸ h.record⟩

theorem revoked_addToken (h : Revoked C name fingerprint t) {token : TokenRecord}
    (hok : addToken C token t = (.ok (), t')) : Revoked C name fingerprint t' :=
  ⟨indexed_addToken h.index hok, tokenAt_addToken h.record hok⟩

theorem revoked_applyCommand (h : Revoked C name fingerprint t) {command : Command}
    (hrestore : ∀ data, command ≠ .restoreDatabase data)
    (hok : applyCommand C nodeId command t = (.ok (), t')) : Revoked C name fingerprint t' :=
  ⟨indexed_command hrestore hok h.index,
    tokenAt_command (fun _ _ _ => rfl) (fun _ _ hrevoked => hrevoked) hrestore hok h.record⟩

theorem revoked_seedAdminRole (h : Revoked C name fingerprint t) :
    Revoked C name fingerprint (RedbStore.seedAdminRole C t) := by
  unfold RedbStore.seedAdminRole
  split_ifs
  · exact h
  · exact revoked_congr h rfl rfl

theorem revoked_step {cfg : AuthConfig} (h : Revoked C name fingerprint t) {event : VaultEvent}
    (hrestore : event.isRestore = false) : Revoked C name fingerprint (vaultStep C cfg nodeId t event) := by
  cases event with
  | command arrival =>
      rcases @arrive_cases C nodeId t arrival with he | hok
      · rw [vaultStep, he]
        exact h
      · refine revoked_applyCommand h (fun data hdata => ?_) hok
        simp [VaultEvent.isRestore, hdata] at hrestore
  | restart bootstrap now =>
      cases bootstrap with
      | none => exact revoked_seedAdminRole h
      | some token =>
          rcases @seedBootstrap_cases C nodeId now (cfg.fingerprint token) (RedbStore.seedAdminRole C t) with he | hok
          · rw [vaultStep, he]
            exact revoked_seedAdminRole h
          · exact revoked_addToken (revoked_seedAdminRole h) hok

/-- Revoking a token again finds none. -/
theorem revokeToken_of_revoked (h : Revoked C name fingerprint t) (revokedAt : Int64) :
    revokeToken C name revokedAt t = (.error .notFound, t) := by
  obtain ⟨token, htoken, hrevoked⟩ := h.record
  obtain ⟨bytes, hget, hdec⟩ := get_of_recordAt htoken
  simp only [revokeToken, h.index, hget, decodeRow_ok.mpr hdec, hrevoked, if_true]

end Steps

/-! ## The extraction -/

section Extraction
variable (A : AppState) (cfg : AuthConfig) (w : World)

theorem lockoutCheck_exec (ip : Option IpAddr) (now : Int64) : ∃ r, (lockoutCheck A cfg ip now).exec A w = (r, w) := by
  unfold lockoutCheck
  split_ifs
  · exact ⟨.ok (), rfl⟩
  · cases ip with
    | none => exact ⟨.ok (), rfl⟩
    | some ip => exact checkKey_exec cfg _ now w

theorem lockoutRecord_exec (ip : Option IpAddr) (now : Int64) :
    ∃ w', (lockoutRecord A cfg ip now).exec A w = (.ok (), w') := by
  cases ip with
  | none => exact ⟨w, rfl⟩
  | some ip => exact recordKey_exec cfg _ now w

theorem rejectActor_exec (parts : RequestParts) (g : GuardTimes) :
    ∃ w', (rejectActor A cfg parts g).exec A w = (.error .unauthorized, w') := by
  obtain ⟨w', hw'⟩ := lockoutRecord_exec A cfg w parts.peerIp g.recordAt
  exact ⟨w', Call.exec_bind_ok hw'⟩

variable {A cfg w}

/-- A request with a revoked token is rejected. -/
theorem adminActor_of_revoked {name bearer : String} {parts : RequestParts}
    (h : Revoked A.codec name (cfg.fingerprint bearer) w.tables) (hbearer : bearerToken parts = some bearer)
    (g : GuardTimes) : ∃ e w', (adminActor A cfg parts g).exec A w = (.error e, w') := by
  obtain ⟨token, htoken, hrevoked⟩ := h.record
  have hread : (Call.read (RedbStore.tokenByFingerprint A.codec (cfg.fingerprint bearer))).exec A w =
      (.ok (some token), w) := by
    rw [Call.exec_read, RedbStore.tokenByFingerprint, lookup_eq_ok.mpr htoken]
    rfl
  have hfilter : (some token).filter (fun record => record.revokedAt.isNone) = none := by
    simp [Option.filter, Option.isNone_iff_eq_none, Option.isSome_iff_ne_none.mp hrevoked]
  obtain ⟨r, hr⟩ := lockoutCheck_exec A cfg w parts.peerIp g.checkAt
  obtain ⟨w', hw'⟩ := rejectActor_exec A cfg w parts g
  unfold adminActor
  cases r with
  | error e => exact ⟨e, w, Call.exec_bind_error hr⟩
  | ok u =>
      refine ⟨.unauthorized, w', (Call.exec_bind_ok hr).trans ?_⟩
      rw [hbearer]
      refine (Call.exec_bind_ok hread).trans ?_
      rw [hfilter]
      exact hw'

end Extraction

/-- A token that has been revoked stays revoked through every sequence of commands on either path and of restarts
with any bootstrap token, restores apart: a request that carries it is rejected, and revoking it again finds no
token and changes nothing. -/
theorem revocation_is_permanent (A : AppState) (cfg : AuthConfig) (t t' : Tables) (name : String) (fingerprint : Bytes)
    (revokedAt : Int64) (hindex : t.tokensByName.get name = some fingerprint)
    (hrevoke : applyCommand A.codec A.nodeId (.revokeToken name revokedAt) t = (.ok (), t'))
    (events : List VaultEvent) (hevents : ∀ event ∈ events, event.isRestore = false) :
    (∀ w parts g bearer, w.tables = run (vaultStep A.codec cfg A.nodeId) t' events →
      bearerToken parts = some bearer → cfg.fingerprint bearer = fingerprint →
      ∃ e w', (adminActor A cfg parts g).exec A w = (.error e, w')) ∧
    ∀ again, applyCommand A.codec A.nodeId (.revokeToken name again) (run (vaultStep A.codec cfg A.nodeId) t' events) =
      (.error .notFound, run (vaultStep A.codec cfg A.nodeId) t' events) := by
  have hfirst : Revoked A.codec name fingerprint t' := by
    obtain ⟨key, token, hkey, _, _, rfl⟩ := revokeToken_ok hrevoke
    cases hindex.symm.trans hkey
    exact ⟨hindex, _, recordAt_insert_self _ _, rfl⟩
  have hlast : Revoked A.codec name fingerprint (run (vaultStep A.codec cfg A.nodeId) t' events) :=
    run_inv_of_allSteps (I := Revoked A.codec name fingerprint) (P := fun _ event => event.isRestore = false)
      (fun _ _ ht hevent => revoked_step ht hevent) hfirst (allSteps_of_forall hevents)
  refine ⟨fun w parts g bearer hw hbearer hfingerprint => ?_, revokeToken_of_revoked hlast⟩
  subst hfingerprint
  exact adminActor_of_revoked (hw ▸ hlast) hbearer g

/-! ## A revoked bootstrap token -/

/-- The SHA-256 of the text `token`. -/
def demoFingerprint : Bytes :=
  [60, 70, 158, 157, 108, 88, 117, 211, 122, 67, 243, 83, 212, 248, 142, 97,
   252, 248, 18, 198, 110, 238, 52, 87, 70, 90, 64, 176, 218, 65, 83, 224]

def demoAuth : AuthConfig where
  authMaxFailures := 5
  authLockoutSecs := 60
  authWindowSecs := 60
  tokenTouchSecs := 60
  trustProxy := false
  allowlist := fun _ => true
  showIp := fun _ => "127.0.0.1"
  parseIp := fun _ => none
  fingerprint := fun token => if token = "token" then demoFingerprint else utf8 token

/-- A store that was started with a bootstrap token. -/
def seededTables (C : Codec) : Tables :=
  { Tables.empty with
    tokensByName := Table.empty.insert "bootstrap-admin" demoFingerprint
    tokens := Table.empty.insert demoFingerprint (C.token.encode (bootstrapToken demoFingerprint 0)) }

theorem seededTables_revoke (C : Codec) : ∃ t', applyCommand C 1 (.revokeToken "bootstrap-admin" 5) (seededTables C) =
    (.ok (), t') := by
  simp only [applyCommand, revokeToken, seededTables, Table.get_insert_self, decodeRow_encode]
  exact ⟨_, rfl⟩

/-- Starting again with the same bootstrap token does not bring it back. -/
theorem revoked_bootstrap_token_is_rejected : ∃ t', applyCommand jsonCodec 1 (.revokeToken "bootstrap-admin" 5)
      (seededTables jsonCodec) = (.ok (), t') ∧
    ∃ e w', (adminActor (nodeWith jsonCodec) demoAuth ⟨some "Bearer token", none, none⟩ ⟨9, 9, 9⟩).exec
      (nodeWith jsonCodec) { freshWorld with
        tables := run (vaultStep jsonCodec demoAuth 1) t' [.restart (some "token") 8] } = (.error e, w') := by
  obtain ⟨t', ht'⟩ := seededTables_revoke jsonCodec
  refine ⟨t', ht', ?_⟩
  exact (revocation_is_permanent (nodeWith jsonCodec) demoAuth (seededTables jsonCodec) t' "bootstrap-admin"
    demoFingerprint 5 (Table.get_insert_self _ _ _) ht' [.restart (some "token") 8] (by simp [VaultEvent.isRestore])).1
    _ _ _ "token" rfl (by decide) rfl

end HyperionVault
