import HyperionVault.Service.Passes

/-!
# What the calls of the service can do to the world

`Prepared` lists every operation that a call performs, with what the call knows by then: a command is
computed from a record or a row that was stored in an earlier state of the run, and a version that is
written was sealed for its own name and number, with a data key and a label of earlier states. Invariants of the
running service are proved from this list, not from the calls.

* `Sealing.Valid`, `Sealing.Made` : a sealing for a name and a version number, and when its parts were obtained;
* `Prepared` : the operations;
* `sealVersion_guards`, `rotateCommit_guards`, ... , `body_guards` : every call performs prepared operations.
-/

namespace HyperionVault
open Lib

/-- The record was sealed for this name and number under its key, and its wrapped key unwraps to it. -/
structure Sealing.Valid (A : AppState) (name : String) (number : Int32) (x : Sealing) : Prop where
  version : x.record.version = number
  aad : x.record.aad = aadFor name number
  unexpired : x.record.expiresAt = none
  unwraps : A.kms.decryptDataKey x.record.wrappedDek x.record.kmsKeyId (kmsContext name number) = .ok x.dek
  sealed : ∃ nonce : Nonce, x.record.nonce = nonce.val ∧
    A.aead.sealWith x.dek nonce (aadFor name number) (x.payload.bytes A) = some x.record.ciphertext

section Prepared
variable (A : AppState) (I : World → Prop) (R : World → World → Prop) (call : ServiceCall)

/-- The data key was generated by KMS and the label was read from the store, at two moments of the run. -/
structure Sealing.Made (name : String) (number : Int32) (x : Sealing) (w : World) : Prop where
  key : Earlier I R w fun w₀ => ∃ draw, A.kms.generateDataKey w₀.material draw (kmsContext name number) =
    .ok ⟨x.dek, x.record.wrappedDek, x.record.kmsKeyId⟩
  label : Earlier I R w fun w₀ => ∃ state, RedbStore.kmsRewrapState A.codec w₀.tables = .ok state ∧
    x.record.wrappedRotationAt = some ((state.map KmsRewrapState.lastCompletedRotationAt).getD 0)

/-- The operations of a call, in the state in which they are performed. -/
inductive Prepared (w : World) : Op → Prop
  | read : Prepared w .read
  | kms : Prepared w .kms
  | busy (node : Nat) (value : Bool) : Prepared w (.busy node value)
  | audit (entry : AuditEntry) : Prepared w (.submit (.appendAudit entry) .nothing none)
  | sweep {now : Int64} (caller : call = .expireGrace now) :
      Prepared w (.submit (.expireGraceVersions now) .nothing none)
  | completed (state : KmsRewrapState) (caller : call.isPass = true) :
      Prepared w (.submit (.setKmsRewrapState state) .nothing none)
  | delete {actor name : String} {d : Draws} (caller : call = .delete actor name d) :
      Prepared w (.submit (.deleteSecret name) .nothing none)
  | create {actor : String} {req : CreateSecretRequest} {d : Draws} {grace : Int64} {x : Sealing}
      (caller : call = .create actor req d) (interval : req.kind = .automatic → req.rotationIntervalSecs.isSome)
      (sealing : x.Valid A req.name 1) (made : x.Made A I R req.name 1 w) :
      Prepared w (.submit (.createSecret (newSecretRecord req x.payload.format grace d.now) x.record) .nothing (some x))
  | updateVersion {actor name : String} {secret : SecretRecord} {req : UpdateSecretRequest} {d : Draws} {x : Sealing}
      (caller : call = .update actor name req d)
      (read : Earlier I R w fun w₀ => secretAt A.codec w₀.tables name = some secret)
      (next : nextVersion secret.currentVersion = some x.record.version)
      (sealing : x.Valid A name x.record.version) (format : x.payload.format = secret.format)
      (made : x.Made A I R name x.record.version w) :
      Prepared w (.submit (updateVersionCommand name secret req d.now x.record) (.record secret) (some x))
  | updateMeta {actor name : String} {secret : SecretRecord} {req : UpdateSecretRequest} {d : Draws}
      (caller : call = .update actor name req d)
      (read : Earlier I R w fun w₀ => secretAt A.codec w₀.tables name = some secret) :
      Prepared w (.submit (updateMetaCommand name secret req d.now) (.record secret) none)
  | rotate {actor name : String} {clientIp : Option String} {secret : SecretRecord} {d : Draws} {x : Sealing}
      (caller : call = .rotate actor clientIp name d)
      (read : Earlier I R w fun w₀ => secretAt A.codec w₀.tables name = some secret)
      (kind : secret.kind = .automatic) (next : nextVersion secret.currentVersion = some x.record.version)
      (sealing : x.Valid A name x.record.version) (format : x.payload.format = secret.format)
      (username : ∀ new, x.payload = .userpass new → Earlier I R w fun w₀ => ∃ v current,
        versionAt A.codec w₀.tables (versionKey name secret.currentVersion) = some v ∧
        openUserpass A name secret.currentVersion v = .ok current ∧ new.username = current.username)
      (made : x.Made A I R name x.record.version w) :
      Prepared w (.submit (rotateCommand name secret d.now x.record) (.record secret) (some x))
  | retry {actor name : String} {clientIp : Option String} {secret : SecretRecord} {version : Int32} {d : Draws}
      (caller : call = .rotate actor clientIp name d)
      (read : Earlier I R w fun w₀ => secretAt A.codec w₀.tables name = some secret)
      (kind : secret.kind = .automatic) :
      Prepared w (.submit (retryCommand name version d.now) (.record secret) none)
  | rewrap {name keyId : String} {incarnation draw : Nat} {v : VersionRecord} {target material : Int64}
      {wrapped : Bytes} (caller : call.isPass = true)
      (read : Earlier I R w fun w₀ => w₀.incarnation name = incarnation ∧ isValidSecretName name = true ∧
        1 ≤ v.version ∧ versionAt A.codec w₀.tables (versionKey name v.version) = some v)
      (rewrapped : A.kms.reencryptDataKey material draw v.wrappedDek v.kmsKeyId (kmsContext name v.version) =
        .ok (wrapped, keyId)) :
      Prepared w (.submit (.rewrapVersion name v.version keyId wrapped target) (.row incarnation v) none)
  | attempt {actor name : String} {clientIp : Option String} {d : Draws} {version : Int32} {a : Attempt}
      {secret : SecretRecord} {x : Sealing} {pg : PgRoleTarget} {new : UserPass}
      (caller : call = .rotate actor clientIp name d)
      (read : Earlier I R w fun w₀ => secretAt A.codec w₀.tables name = some secret)
      (next : nextVersion secret.currentVersion = some version)
      (target : secret.target = some (.pgReplica pg)) (payload : x.payload = .userpass new)
      (committed : Earlier I R w fun w₁ => w₁.sealings name (w₁.incarnation name) version = some x)
      (password : a.newPassword = new.password) (role : a.role = pg.role.getD new.username) :
      Prepared w (.attempt a name version)

/-- What a call promises, in the terms of `Proc.Guards`. -/
abbrev Call.Guards {α : Type} (c : Call α) (w : World) (Q : World → α → Prop) : Prop :=
  c.Keeps A I R (Prepared A I R call) w Q

instance : Observes (Prepared A I R call) := ⟨fun _ => .read, fun _ => .kms⟩

end Prepared

/-! ## Calls -/

section Calls
variable {A : AppState} {I : World → Prop} {R : World → World → Prop} [IsPreorder World R] {w w' : World}
  {actor name : String} {d : Draws}
  {call : ServiceCall} {w : World}

theorem audit_guards (hi : I w) {actor clientIp : Option String} {action : String} {secretName : Option String}
    {outcome : String} {Q : World → Unit → Prop} (h : ∀ w', I w' → Q w' ()) :
    (audit A actor clientIp action secretName outcome d).Guards A I R call w Q := by
  refine Proc.guards_bind_ok hi (Proc.guards_lift hi (trySubmit_guards fun w' _ _ => .audit _)) ?_
  exact fun w₁ _ _ _ _ => Proc.guards_pure fun w' _ hi' => h w' hi'

theorem Sealing.Made.mono {name : String} {number : Int32} {x : Sealing} {w' : World} (h : x.Made A I R name number w)
    (hr : R w w') : x.Made A I R name number w' :=
  ⟨h.key.mono hr fun _ hk => hk, h.label.mono hr fun _ hl => hl⟩

theorem sealVersion_guards (hi : I w) (name : String) (number : Int32) (payload : Payload) (d : Draws) :
    (sealVersion A name number payload d).Guards A I R call w fun w' x =>
      x.Valid A name number ∧ x.payload = payload ∧ x.Made A I R name number w' := by
  refine Proc.guards_bind_ok hi (kms_guards hi _) fun w₁ dataKey _ hi₁ hkey => ?_
  have hgenerated := hkey w₁ (refl_of R w₁) hi₁
  obtain ⟨_, _, _, _, hkey⟩ := id hgenerated
  refine Proc.guards_bind_ok hi₁ (ofOption_guards (Q := fun _ ciphertext =>
    A.aead.sealWith dataKey.plaintext d.nonce (aadFor name number) (payload.bytes A) = some ciphertext)
    fun _ h _ _ _ => h) fun w₂ ciphertext hw₂ hi₂ hseal => ?_
  have hseal := hseal w₂ (refl_of R w₂) hi₂
  refine Proc.guards_bind_ok hi₂ (read_guards hi₂ _) fun w₃ state hw₃ hi₃ hstate => ?_
  refine Proc.guards_pure fun w' hw hi' => ⟨⟨rfl, rfl, rfl, A.kms.decrypt_generate hkey, d.nonce, rfl, hseal⟩, rfl, ?_⟩
  have hlater := trans_of R hw₂ (trans_of R hw₃ hw)
  refine ⟨hgenerated.mono hlater fun _ h => ⟨d.dataKey, h.2⟩, ?_⟩
  exact (hstate w' hw hi').mono (refl_of R w') fun _ h => ⟨state, h.2, rfl⟩

theorem readSecret_guards (hi : I w) (name : String) :
    (readSecret A name).Guards A I R call w fun w' secret =>
      Earlier I R w' fun w₀ => secretAt A.codec w₀.tables name = some secret := by
  refine Proc.guards_bind_ok hi (read_guards hi _) fun w₁ found _ _ hfound => ?_
  refine ofOption_guards fun secret hsecret w' hw hi' => ?_
  subst hsecret
  exact (hfound w' hw hi').mono (refl_of R w') fun w₀ h => secret_eq_ok.mp h.2

theorem loadUserpass_guards (hi : I w) (name : String) (number : Int32) :
    (loadUserpass A name number).Guards A I R call w fun w' login => Earlier I R w' fun w₀ => ∃ v,
      versionAt A.codec w₀.tables (versionKey name number) = some v ∧ openUserpass A name number v = .ok login := by
  refine Proc.guards_bind_ok hi (read_guards hi _) fun w₁ found _ hi₁ hfound => ?_
  have hfound := hfound w₁ (refl_of R w₁) hi₁
  refine Proc.guards_bind_ok hi₁ (ofOption_guards (Q := fun _ record => found = some record) fun _ h _ _ _ => h)
    fun w₂ record hw₂ hi₂ hrecord => ?_
  obtain rfl := hrecord w₂ (refl_of R w₂) hi₂
  refine ofExcept_guards fun login hlogin w' hw hi' => ?_
  exact hfound.mono (trans_of R hw₂ hw) fun w₀ h => ⟨record, version_eq_ok.mp h.2, hlogin⟩

/-! ### Create, delete and update -/

theorem interval_of_checkCreate {req : CreateSecretRequest} {token : String} {r : Int64 × Payload}
    (h : checkCreate A req token = .ok r) : req.kind = .automatic → req.rotationIntervalSecs.isSome := by
  intro hkind
  unfold checkCreate at h
  simp only [bind_eq_ok] at h
  obtain ⟨_, _, _, _, _, _, _, _, _, hcheck, _⟩ := h
  rw [require_eq_ok] at hcheck
  cases hsecs : req.rotationIntervalSecs with
  | some secs => rfl
  | none =>
      rw [hkind, hsecs] at hcheck
      exact absurd hcheck (by decide)

theorem createSecretCall_guards (hi : I w) {actor : String} {req : CreateSecretRequest}
    (hcall : call = .create actor req d) :
    (createSecretCall A actor req d).Guards A I R call w fun _ _ => True := by
  refine Proc.guards_bind_ok hi (ofExcept_guards (Q := fun _ r => checkCreate A req d.token = .ok r)
    fun _ h _ _ _ => h) fun w₁ r _ hi₁ hr => ?_
  have hinterval := interval_of_checkCreate (hr w₁ (refl_of R w₁) hi₁)
  refine Proc.guards_bind_ok hi₁ (sealVersion_guards hi₁ _ _ _ _) fun w₂ x _ hi₂ hx => ?_
  obtain ⟨hvalid, hpayload, hmade⟩ := hx w₂ (refl_of R w₂) hi₂
  rw [← hpayload]
  refine Proc.guards_bind_ok hi₂ (submit_guards hi₂ fun w' hw _ =>
    .create hcall hinterval hvalid (hmade.mono hw)) fun w₃ _ _ hi₃ _ => ?_
  refine Proc.guards_bind_ok hi₃ (audit_guards (Q := fun _ _ => True) hi₃ fun _ _ => trivial) ?_
  exact fun _ _ _ _ _ => Proc.guards_pure fun _ _ _ => trivial

theorem deleteSecretCall_guards (hi : I w) (hcall : call = .delete actor name d) :
    (deleteSecretCall A actor name d).Guards A I R call w fun _ _ => True := by
  refine Proc.guards_bind_ok hi (submit_guards hi fun w' _ _ => .delete hcall) fun w₁ _ _ hi₁ _ => ?_
  exact audit_guards hi₁ fun _ _ => trivial

theorem updatePayload_guards (hi : I w) (name : String) (secret : SecretRecord) (req : UpdateSecretRequest) :
    (updatePayload A name secret req).Guards A I R call w fun _ payload => payload.format = secret.format := by
  unfold updatePayload
  cases hformat : secret.format with
  | opaqueValue =>
      refine Proc.guards_bind_ok hi (ensure_guards (Q := fun _ _ => True) fun _ _ _ _ => trivial) ?_
      exact fun _ _ _ _ _ => Proc.guards_pure fun _ _ _ => rfl
  | userpass =>
      refine Proc.guards_bind_ok hi (loadUserpass_guards hi _ _) fun w₁ current _ hi₁ _ => ?_
      refine Proc.guards_bind_ok hi₁ (ensure_guards (Q := fun _ _ => True) fun _ _ _ _ => trivial) ?_
      intro w₂ _ _ hi₂ _
      refine Proc.guards_bind_ok hi₂ (ensure_guards (Q := fun _ _ => True) fun _ _ _ _ => trivial) ?_
      exact fun _ _ _ _ _ => Proc.guards_pure fun _ _ _ => rfl

theorem updateCommit_guards (hi : I w) {req : UpdateSecretRequest} (hcall : call = .update actor name req d) :
    (updateCommit A name req d).Guards A I R call w fun _ _ => True := by
  refine Proc.guards_bind_ok hi (ensure_guards (Q := fun _ _ => True) fun _ _ _ _ => trivial) fun w₁ _ _ hi₁ _ => ?_
  refine Proc.guards_bind_ok hi₁ (readSecret_guards hi₁ name) fun w₂ secret _ hi₂ hread => ?_
  have hread := hread w₂ (refl_of R w₂) hi₂
  refine Proc.guards_bind_ok hi₂ (ensure_guards (Q := fun _ _ => True) fun _ _ _ _ => trivial)
    fun w₃ _ hw₃ hi₃ _ => ?_
  split
  · refine Proc.guards_bind_ok hi₃ (updatePayload_guards hi₃ _ _ _) fun w₄ payload hw₄ hi₄ hformat => ?_
    have hformat := hformat w₄ (refl_of R w₄) hi₄
    refine Proc.guards_bind_ok hi₄ (ofOption_guards (Q := fun _ number =>
      nextVersion secret.currentVersion = some number) fun _ h _ _ _ => h) fun w₅ number hw₅ hi₅ hnext => ?_
    have hnext := hnext w₅ (refl_of R w₅) hi₅
    refine Proc.guards_bind_ok hi₅ (sealVersion_guards hi₅ _ _ _ _) fun w₆ x hw₆ hi₆ hx => ?_
    obtain ⟨hvalid, hpayload, hmade⟩ := hx w₆ (refl_of R w₆) hi₆
    subst hpayload
    have hnumber := hvalid.version
    subst hnumber
    refine Proc.guards_conseq_ok (submit_guards hi₆ fun w' hw _ => ?_) fun _ _ _ => trivial
    have hlater := trans_of R hw₃ (trans_of R hw₄ (trans_of R hw₅ (trans_of R hw₆ hw)))
    exact .updateVersion hcall (hread.mono hlater fun _ h => h) hnext hvalid hformat (hmade.mono hw)
  · refine Proc.guards_conseq_ok (submit_guards hi₃ fun w' hw _ => ?_) fun _ _ _ => trivial
    exact .updateMeta hcall (hread.mono (trans_of R hw₃ hw) fun _ h => h)

theorem updateSecret_guards (hi : I w) {req : UpdateSecretRequest} (hcall : call = .update actor name req d) :
    (updateSecret A actor name req d).Guards A I R call w fun _ _ => True := by
  refine Proc.guards_bind_ok hi (updateCommit_guards hi hcall) fun w₁ _ _ hi₁ _ => ?_
  refine Proc.guards_bind_ok hi₁ (audit_guards (Q := fun _ _ => True) hi₁ fun _ _ => trivial) fun w₂ _ _ hi₂ _ => ?_
  exact Proc.guards_conseq_ok (readSecret_guards hi₂ name) fun _ _ _ => trivial

/-! ### Rotate -/

/-- A committed version is in the history with its sealing. -/
theorem sealings_commit_putVersion {name : String} {expectedCurrent : Int32} {x : Sealing}
    {supersedeExpiresAt : Option Int64} {setDescription : Option String}
    {setRotationIntervalSecs setGraceSecs : Option Int64} {nextRotationAt : NextRotation} {updatedAt : Int64}
    (h : (RedbStore.apply A.codec A.nodeId (.putVersion name expectedCurrent x.record supersedeExpiresAt
      setDescription setRotationIntervalSecs setGraceSecs nextRotationAt updatedAt) w.tables).1 = .ok ()) :
    let w' := w.commit A (.putVersion name expectedCurrent x.record supersedeExpiresAt setDescription
      setRotationIntervalSecs setGraceSecs nextRotationAt updatedAt) (some x)
    w'.sealings name (w'.incarnation name) x.record.version = some x := by
  intro w'
  obtain ⟨t', ht'⟩ := redbStore_apply_ok h
  have hw' : w' = { w.record (.putVersion name expectedCurrent x.record supersedeExpiresAt setDescription
      setRotationIntervalSecs setGraceSecs nextRotationAt updatedAt) (some x) with tables := t' } := by
    simp only [w', World.commit, RedbStore.apply, ht']
  rw [hw']
  simp only [World.record, World.withSealing, Function.update_self]

theorem rotatePayload_guards (hi : I w) (name : String) (secret : SecretRecord) (d : Draws) :
    (rotatePayload A name secret d).Guards A I R call w fun w' payload => payload.format = secret.format ∧
      ∀ new, payload = .userpass new → Earlier I R w' fun w₀ => ∃ v current,
        versionAt A.codec w₀.tables (versionKey name secret.currentVersion) = some v ∧
        openUserpass A name secret.currentVersion v = .ok current ∧ new.username = current.username := by
  unfold rotatePayload
  cases hformat : secret.format with
  | opaqueValue => exact Proc.guards_pure fun _ _ _ => ⟨rfl, fun _ h => nomatch h⟩
  | userpass =>
      refine Proc.guards_bind_ok hi (loadUserpass_guards hi _ _) fun w₁ current _ hi₁ hread => ?_
      refine Proc.guards_pure fun w' hw hi' => ⟨rfl, fun new hnew => ?_⟩
      cases hnew
      exact (hread w' hw hi').mono (refl_of R w') fun w₀ ⟨v, hv, hopen⟩ => ⟨v, current, hv, hopen, rfl⟩

/-- What a rotation knows once its version is committed. -/
def Rotated (A : AppState) (I : World → Prop) (R : World → World → Prop) (name : String) (w : World)
    (r : SecretRecord × Sealing) : Prop :=
  Earlier I R w (fun w₀ => secretAt A.codec w₀.tables name = some r.1) ∧ r.1.kind = .automatic ∧
    nextVersion r.1.currentVersion = some r.2.record.version ∧ r.2.payload.format = r.1.format ∧
    Earlier I R w fun w₁ => w₁.sealings name (w₁.incarnation name) r.2.record.version = some r.2

theorem rotateCommit_guards (hi : I w) {clientIp : Option String} (hcall : call = .rotate actor clientIp name d) :
    (rotateCommit A name d).Guards A I R call w (Rotated A I R name) := by
  refine Proc.guards_bind_ok hi (readSecret_guards hi name) fun w₁ secret _ hi₁ hread => ?_
  have hread := hread w₁ (refl_of R w₁) hi₁
  split
  · exact Proc.guards_throw
  · next hkind =>
      have hkind : secret.kind = .automatic := not_not.mp hkind
      refine Proc.guards_bind_ok hi₁ (ofOption_guards (Q := fun _ number =>
        nextVersion secret.currentVersion = some number) fun _ h _ _ _ => h) fun w₂ number hw₂ hi₂ hnext => ?_
      have hnext := hnext w₂ (refl_of R w₂) hi₂
      refine Proc.guards_bind_ok hi₂ (rotatePayload_guards hi₂ name secret d) fun w₃ payload hw₃ hi₃ hpay => ?_
      obtain ⟨hformat, husername⟩ := hpay w₃ (refl_of R w₃) hi₃
      refine Proc.guards_bind_ok hi₃ (sealVersion_guards hi₃ _ _ _ _) fun w₄ x hw₄ hi₄ hx => ?_
      obtain ⟨hvalid, hpayload, hmade⟩ := hx w₄ (refl_of R w₄) hi₄
      subst hpayload
      have hnumber := hvalid.version
      subst hnumber
      have hlater := trans_of R hw₂ (trans_of R hw₃ hw₄)
      refine Proc.guards_bind_ok hi₄ (submit_guards hi₄ fun w' hw _ => ?_) fun w₅ _ hw₅ hi₅ hcommit => ?_
      · refine .rotate hcall (hread.mono (trans_of R hlater hw) fun _ h => h) hkind hnext hvalid hformat
          (fun new hnew => ?_) (hmade.mono hw)
        exact (husername new hnew).mono (trans_of R hw₄ hw) fun _ h => h
      · refine Proc.guards_pure fun w' hw hi' => ?_
        obtain ⟨_, hinv, hr, w₀, _, _, hok, rfl⟩ := hcommit w' hw hi'
        refine ⟨hread.mono (trans_of R hlater (trans_of R hw₅ hw)) fun _ h => h, hkind, hnext, hformat, _, hinv, hr, ?_⟩
        exact sealings_commit_putVersion hok

theorem accepts_of_tryRotate {a : Attempt} (h : w.tryRotate a = .ok true) : w.accepts a = true := by
  unfold World.tryRotate at h
  unfold World.accepts
  cases hreach : w.network w.attempts <;> simp only [hreach] at h ⊢
  all_goals cases hlogin : w.loginOk a <;> simp [hlogin] at h ⊢

theorem mem_accepted_perform {a : Attempt} {name : String} {version : Int32} (h : w.accepts a = true) :
    (name, version) ∈ (w.perform A (.attempt a name version)).accepted := by
  simp [World.perform, h]

/-- A target that a host answers for has accepted the password. -/
theorem tryHosts_guards (hacc : ∀ {w w' : World}, R w w' → ∀ y ∈ w.accepted, y ∈ w'.accepted) (hi : I w)
    {pg : PgRoleTarget} {login : UserPass} {role newPassword name : String} {version : Int32}
    (hop : ∀ w', R w w' → I w' → ∀ host port,
      Prepared A I R call w' (.attempt ⟨host, port, pg.database, login, role, newPassword⟩ name version))
    (hosts : List String) (lastErr : Option String) :
    Proc.Guards (World.perform A) I R (Prepared A I R call)
      (tryHosts pg login role newPassword name version hosts lastErr) w
      fun w' r => r = .ok () → (name, version) ∈ w'.accepted := by
  induction hosts generalizing w lastErr with
  | nil => exact fun w' _ _ h => nomatch h
  | cons hostport rest ih =>
      refine Proc.guards_bind hi (Proc.guards_perform (Q := fun w' answer =>
        answer = .ok true → (name, version) ∈ w'.accepted) fun w₀ hw hi₀ => ⟨hop w₀ hw hi₀ _ _, ?_⟩) ?_
      · intro _ _ t ht _ hanswer
        exact hacc ht _ (mem_accepted_perform (accepts_of_tryRotate hanswer))
      · intro w₁ answer hw₁ hi₁ hanswer
        have hop₁ : ∀ w', R w₁ w' → I w' → ∀ host port,
            Prepared A I R call w' (.attempt ⟨host, port, pg.database, login, role, newPassword⟩ name version) :=
          fun w' hw => hop w' (trans_of R hw₁ hw)
        cases answer with
        | error message => exact ih hi₁ hop₁ _
        | ok primary =>
            cases primary with
            | true => exact fun w' hw hi' _ => hanswer w' hw hi' rfl
            | false => exact ih hi₁ hop₁ _

theorem tryLogins_guards (hacc : ∀ {w w' : World}, R w w' → ∀ y ∈ w.accepted, y ∈ w'.accepted) (hi : I w)
    {pg : PgRoleTarget} {role newPassword name : String} {version : Int32}
    (hop : ∀ w', R w w' → I w' → ∀ login host port,
      Prepared A I R call w' (.attempt ⟨host, port, pg.database, login, role, newPassword⟩ name version))
    (logins : List UserPass) (lastErr : Option String) :
    (tryLogins A pg role newPassword name version logins lastErr).Guards A I R call w
      fun w' _ => (name, version) ∈ w'.accepted := by
  induction logins generalizing w lastErr with
  | nil => exact Proc.guards_throw
  | cons login rest ih =>
      refine Proc.guards_bind_ok hi (Proc.guards_lift (Q := fun w' r => r = .ok () → (name, version) ∈ w'.accepted)
        hi ?_) fun w₁ answer hw₁ hi₁ hanswer => ?_
      · unfold applyPassword
        cases A.pgTargets.check pg with
        | error message => exact fun w' _ _ h => nomatch h
        | ok u => exact tryHosts_guards hacc hi (fun w' hw hi' => hop w' hw hi' login) pg.hosts none
      · cases answer with
        | ok u => exact Proc.guards_pure fun w' hw hi' => hanswer w' hw hi' rfl
        | error message => exact ih hi₁ (fun w' hw => hop w' (trans_of R hw₁ hw)) _

/-! ### Re-wrap passes -/

theorem allowsPass_prepared (hpass : call.isPass = true) (start : World) (target : Int64) :
    AllowsPass A I R (Prepared A I R call) start target where
  busy _ := .busy
  rewrap _ _ hw hread hkms := .rewrap hpass (hread.mono hw fun _ h => h) hkms
  completed _ _ := .completed _ hpass

/-! ### The whole of a rotation -/

theorem loadLogins_guards (hi : I w) (name : String) (versions : List Int32) :
    (loadLogins A name versions).Guards A I R call w fun _ _ => True := by
  induction versions generalizing w with
  | nil => exact Proc.guards_pure fun _ _ _ => trivial
  | cons version rest ih =>
      refine Proc.guards_bind_ok hi (read_guards hi _) fun w₁ found _ hi₁ _ => ?_
      cases found with
      | none => exact ih hi₁
      | some record =>
          refine Proc.guards_bind_ok hi₁ (ofExcept_guards (Q := fun _ _ => True) fun _ _ _ _ _ => trivial)
            fun w₂ _ _ hi₂ _ => ?_
          refine Proc.guards_bind_ok hi₂ (ih hi₂) fun _ _ _ _ _ => ?_
          exact Proc.guards_pure fun _ _ _ => trivial

theorem targetLogins_guards (hi : I w) (name : String) (previous : Int32) (now : Int64) (pg : PgRoleTarget) :
    (targetLogins A name previous now pg).Guards A I R call w fun _ _ => True := by
  have hself : (selfLoginCandidates A name previous now).Guards A I R call w fun _ _ => True :=
    Proc.guards_bind_ok hi (read_guards hi _) fun w₁ live _ hi₁ _ => loadLogins_guards hi₁ name _
  unfold targetLogins
  split
  · next login _ =>
      split_ifs with hlogin
      · have hload : (loadCurrentUserpass A login).Guards A I R call w fun _ _ => True := by
          refine Proc.guards_bind_ok hi (read_guards hi _) fun w₁ found _ hi₁ _ => ?_
          refine Proc.guards_bind_ok hi₁ (ofOption_guards (Q := fun _ _ => True) fun _ _ _ _ _ => trivial) ?_
          exact fun _ _ _ _ _ => ofExcept_guards fun _ _ _ _ _ => trivial
        exact Proc.guards_bind_ok hi hload fun _ _ _ _ _ => Proc.guards_pure fun _ _ _ => trivial
      · exact hself
  · exact hself

/-- A rotation with a target that does not fail has been accepted by the target. -/
theorem rotateApply_guards (hacc : ∀ {w w' : World}, R w w' → ∀ y ∈ w.accepted, y ∈ w'.accepted) (hi : I w)
    {clientIp : Option String} {secret : SecretRecord} {x : Sealing}
    (hcall : call = .rotate actor clientIp name d) (hrot : Rotated A I R name w (secret, x)) :
    (rotateApply A name secret x d).Guards A I R call w fun w' _ => ∀ pg new,
      secret.target = some (.pgReplica pg) → x.payload = .userpass new →
      (name, x.record.version) ∈ w'.accepted := by
  obtain ⟨hread, _, hnext, _, hsealing⟩ := hrot
  unfold rotateApply
  split
  · next pg new htarget hpayload =>
      refine Proc.guards_bind_ok hi (targetLogins_guards hi name _ _ pg) fun w₂ logins hw₂ hi₂ _ => ?_
      split
      · exact Proc.guards_throw
      · refine Proc.guards_conseq_ok (tryLogins_guards hacc hi₂ (fun w' hw _ login host port => ?_) logins none)
          fun _ _ h _ _ _ _ => h
        have hlater := trans_of R hw₂ hw
        exact .attempt hcall (hread.mono hlater fun _ h => h) hnext htarget hpayload
          (hsealing.mono hlater fun _ h => h) rfl rfl
  · next hne =>
      refine Proc.guards_pure fun _ _ _ pg new htarget hpayload => ?_
      exact absurd hpayload (hne pg new htarget)

/-- What a rotation has done when it returns. -/
def Returned (A : AppState) (I : World → Prop) (R : World → World → Prop) (name : String) (w : World)
    (value : SecretValue) : Prop :=
  ∃ secret, Earlier I R w (fun w₀ => secretAt A.codec w₀.tables name = some secret) ∧
    value.payload.format = secret.format ∧
    ∀ pg new, secret.target = some (.pgReplica pg) → value.payload = .userpass new →
      (name, value.version) ∈ w.accepted

theorem rotate_guards (hacc : ∀ {w w' : World}, R w w' → ∀ y ∈ w.accepted, y ∈ w'.accepted) (hi : I w)
    {clientIp : Option String} (hcall : call = .rotate actor clientIp name d) :
    (rotate A actor clientIp name d).Guards A I R call w (Returned A I R name) := by
  refine Proc.guards_bind_ok hi (rotateCommit_guards hi hcall) fun w₁ r _ hi₁ hrot => ?_
  obtain ⟨secret, x⟩ := r
  have hrot := hrot w₁ (refl_of R w₁) hi₁
  refine Proc.guards_bind_ok hi₁ (Proc.guards_lift hi₁ (rotateApply_guards hacc hi₁ hcall hrot))
    fun w₂ applied hw₂ hi₂ happlied => ?_
  cases applied with
  | error err =>
      have hretry : (scheduleApplyRetry A name secret x.record.version d.now).Guards A I R call w₂
          fun _ _ => True := by
        refine Proc.guards_bind_ok hi₂ (Proc.guards_lift hi₂ (trySubmit_guards fun w' hw _ => ?_)) ?_
        · exact .retry hcall (hrot.1.mono (trans_of R hw₂ hw) fun _ h => h) hrot.2.1
        · exact fun _ _ _ _ _ => Proc.guards_pure fun _ _ _ => trivial
      refine Proc.guards_bind_ok hi₂ hretry fun w₃ _ _ hi₃ _ => ?_
      refine Proc.guards_bind_ok hi₃ (audit_guards (Q := fun _ _ => True) hi₃ fun _ _ => trivial) ?_
      exact fun _ _ _ _ _ => Proc.guards_throw
  | ok u =>
      refine Proc.guards_bind_ok hi₂ (audit_guards (Q := fun _ _ => True) hi₂ fun _ _ => trivial)
        fun w₃ _ hw₃ hi₃ _ => Proc.guards_pure fun w' hw hi' => ?_
      have hlater := trans_of R hw₃ hw
      exact ⟨secret, hrot.1.mono (trans_of R hw₂ hlater) fun _ h => h, hrot.2.2.2.1,
        happlied w' hlater hi' () rfl⟩

/-! ### All calls -/

/-- What a call has done when it returns. -/
def ServiceCall.Answered (A : AppState) (I : World → Prop) (R : World → World → Prop) (call : ServiceCall) (w : World)
    (reply : ApiResult Reply) : Prop :=
  match call with
  | .rotate _ _ name _ => ∀ value, reply = .ok (.value value) → Returned A I R name w value
  | _ => True

theorem reply_guards {α : Type} (hi : I w) {c : Call α} {f : α → Reply} {Q : World → α → Prop}
    (h : c.Guards A I R call w Q) : Proc.Guards (World.perform A) I R (Prepared A I R call) (c.reply f) w
      (Proc.OnOk fun w' reply => ∃ a, reply = f a ∧ Q w' a) :=
  Proc.guards_bind_ok hi h fun _ a _ _ hQ => Proc.guards_pure fun w' hw hi' => ⟨a, rfl, hQ w' hw hi'⟩

/-- Every call performs prepared operations only. -/
theorem body_guards (hstore : ∀ {w}, I w → SecretInv A.codec w.tables)
    (hacc : ∀ {w w' : World}, R w w' → ∀ y ∈ w.accepted, y ∈ w'.accepted) (call : ServiceCall) (hi : I w) :
    Proc.Guards (World.perform A) I R (Prepared A I R call) (call.body A) w (call.Answered A I R) := by
  cases call with
  | create actor req d =>
      exact Proc.guards_conseq (reply_guards hi (createSecretCall_guards hi rfl)) fun _ _ _ => trivial
  | update actor name req d =>
      exact Proc.guards_conseq (reply_guards hi (updateSecret_guards hi rfl)) fun _ _ _ => trivial
  | rotate actor clientIp name d =>
      refine Proc.guards_conseq (reply_guards hi (rotate_guards hacc hi rfl)) ?_
      intro w' reply h value hvalue
      obtain ⟨value', hreply, hreturned⟩ := h _ hvalue
      cases hreply
      exact hreturned
  | delete actor name d =>
      exact Proc.guards_conseq (reply_guards hi (deleteSecretCall_guards hi rfl)) fun _ _ _ => trivial
  | expireGrace now =>
      exact Proc.guards_conseq (reply_guards hi (submit_guards hi fun _ _ _ => .sweep rfl)) fun _ _ _ => trivial
  | rewrap node target d completedAt =>
      have hG : AllowsPass A I R (Prepared A I R (.rewrap node target d completedAt)) w target :=
        allowsPass_prepared rfl w target
      have hforce := force_guards hG hstore hi (refl_of R w) node d completedAt
      exact Proc.guards_conseq (reply_guards hi hforce) fun _ _ _ => trivial

end Calls

end HyperionVault
