import HyperionVault.Lib.Serial
import HyperionVault.Service.Prepared
import HyperionVault.Service.Reads

/-!
# Calls that run alone

What a call returns and leaves when nothing runs beside it, by the ways calls are built. A call that fails
stops there.

* `Call.exec` : the outcome and the world after a call;
* `Call.exec_bind` : one part after the other, with its two cases and its inversion;
* `Call.exec_read`, `Call.exec_kms`, `Call.exec_submit`, ... : the primitive operations.
-/

namespace HyperionVault
open Lib

namespace Call
variable {A : AppState} {α β ε : Type} {w w' : World}

/-- The outcome of a call that runs alone, and the world it leaves. -/
abbrev exec (A : AppState) (c : Call α) (w : World) : ApiResult α × World := c.run.exec (World.perform A) w

theorem exec_bind_ok {c : Call α} {f : α → Call β} {a : α} (h : c.exec A w = (.ok a, w')) :
    (c >>= f).exec A w = (f a).exec A w' := Proc.exec_bind_ok h f

theorem exec_bind_error {c : Call α} {f : α → Call β} {e : ApiError} (h : c.exec A w = (.error e, w')) :
    (c >>= f).exec A w = (.error e, w') := by
  refine (Proc.exec_bind (World.perform A) c.run _ w).trans ?_
  rw [show c.run.exec (World.perform A) w = (.error e, w') from h]
  rfl

theorem exec_bind (c : Call α) (f : α → Call β) (w : World) :
    (c >>= f).exec A w = match c.exec A w with
      | (.ok a, w') => (f a).exec A w'
      | (.error e, w') => (.error e, w') := by
  cases h : c.exec A w with
  | mk r w' =>
      cases r with
      | ok a => exact exec_bind_ok h
      | error e => exact exec_bind_error h

/-- A call fails in its first part, or goes on with its result. -/
theorem exec_cases (A : AppState) (c : Call α) (f : α → Call β) (w : World) :
    (∃ e w', c.exec A w = (.error e, w') ∧ (c >>= f).exec A w = (.error e, w')) ∨
      ∃ a w', c.exec A w = (.ok a, w') ∧ (c >>= f).exec A w = (f a).exec A w' := by
  rcases h : c.exec A w with ⟨r, w'⟩
  cases r with
  | error e => exact Or.inl ⟨e, w', rfl, exec_bind_error h⟩
  | ok a => exact Or.inr ⟨a, w', rfl, exec_bind_ok h⟩

theorem exec_bind_eq_ok {c : Call α} {f : α → Call β} {b : β} {u : World} (h : (c >>= f).exec A w = (.ok b, u)) :
    ∃ a t, c.exec A w = (.ok a, t) ∧ (f a).exec A t = (.ok b, u) := Proc.exec_bind_eq_ok h

theorem exec_lift (p : Proc World Op α) :
    exec A (ExceptT.lift p : Call α) w = (.ok (p.exec (World.perform A) w).1, (p.exec (World.perform A) w).2) :=
  Proc.exec_bind (World.perform A) p _ w

theorem exec_ofExcept (toApi : ε → ApiError) (r : Except ε α) :
    (ofExcept toApi r).exec A w = (r.mapError toApi, w) := by
  cases r <;> rfl

theorem exec_ofOption (e : ApiError) (o : Option α) :
    (ofOption e o).exec A w = (o.elim (.error e) .ok, w) := by
  cases o <;> rfl

theorem exec_ensure (check : Except ApiError Unit) : (ensure check).exec A w = (check, w) := by
  cases check <;> rfl

theorem exec_read (query : Tables → StoreResult α) :
    (read query).exec A w = ((query w.tables).mapError .ofStore, w) := by
  have hop : exec A (ExceptT.lift (Proc.perform .read fun w => query w.tables)) w =
      (.ok (query w.tables), w) := rfl
  rw [read, exec_bind_ok hop, exec_ofExcept]

theorem exec_kms (request : Int64 → Except String α) :
    (kms request).exec A w = ((request w.material).mapError .internal, w) := by
  have hop : exec A (ExceptT.lift (Proc.perform .kms fun w => request w.material)) w =
      (.ok (request w.material), w) := rfl
  rw [kms, exec_bind_ok hop, exec_ofExcept]

theorem exec_trySubmit (command : Command) (basis : Basis) (sealing : Option Sealing) :
    exec A (ExceptT.lift (trySubmit A command basis sealing)) w =
      (.ok (RedbStore.apply A.codec A.nodeId command w.tables).1, w.commit A command sealing) := rfl

theorem exec_submit (command : Command) (basis : Basis) (sealing : Option Sealing) :
    (submit A command basis sealing).exec A w =
      ((RedbStore.apply A.codec A.nodeId command w.tables).1.mapError .ofStore, w.commit A command sealing) := by
  rw [submit, exec_bind_ok (exec_trySubmit command basis sealing), exec_ofExcept]

/-! ## Inversion -/

theorem eq_ok_of_mapError {f : ε → ApiError} {r : Except ε α} {a : α} (h : r.mapError f = .ok a) : r = .ok a := by
  cases r with
  | ok b =>
      cases h
      rfl
  | error e => cases h

theorem ofExcept_exec_ok {toApi : ε → ApiError} {r : Except ε α} {a : α}
    (h : (ofExcept toApi r).exec A w = (.ok a, w')) : r = .ok a ∧ w = w' := by
  rw [exec_ofExcept] at h
  obtain ⟨hr, hw⟩ := Prod.mk.inj h
  exact ⟨eq_ok_of_mapError hr, hw⟩

theorem ofOption_exec_ok {e : ApiError} {o : Option α} {a : α} (h : (ofOption e o).exec A w = (.ok a, w')) :
    o = some a ∧ w = w' := by
  rw [exec_ofOption] at h
  obtain ⟨ho, hw⟩ := Prod.mk.inj h
  cases o with
  | some b => exact ⟨congrArg some (Except.ok.inj ho), hw⟩
  | none => cases ho

theorem kms_exec_ok {request : Int64 → Except String α} {a : α} (h : (kms request).exec A w = (.ok a, w')) :
    request w.material = .ok a ∧ w = w' := by
  rw [exec_kms] at h
  obtain ⟨hr, hw⟩ := Prod.mk.inj h
  exact ⟨eq_ok_of_mapError hr, hw⟩

theorem read_exec_ok {query : Tables → StoreResult α} {a : α} (h : (read query).exec A w = (.ok a, w')) :
    query w.tables = .ok a ∧ w = w' := by
  rw [exec_read] at h
  obtain ⟨hr, hw⟩ := Prod.mk.inj h
  exact ⟨eq_ok_of_mapError hr, hw⟩

theorem ensure_exec_ok {check : Except ApiError Unit} (h : (ensure check).exec A w = (.ok (), w')) :
    check = .ok () ∧ w = w' := by
  rw [exec_ensure] at h
  obtain ⟨hc, hw⟩ := Prod.mk.inj h
  exact ⟨hc, hw⟩

end Call

/-- An audit entry is written and the call goes on. -/
theorem audit_exec (A : AppState) (actor clientIp : Option String) (action : String) (secretName : Option String)
    (outcome : String) (d : Draws) (w : World) :
    (audit A actor clientIp action secretName outcome d).exec A w =
      (.ok (), w.commit A (.appendAudit { at_ := d.auditAt, actor, clientIp, action, secretName, outcome, nodeId := 0 })
        none) := rfl

section Parts
variable {A : AppState} {name : String} {w w' : World}

theorem submit_exec {command : Command} (basis : Basis) {sealing : Option Sealing} {t' : Tables}
    (h : applyCommand A.codec A.nodeId command w.tables = (.ok (), t')) :
    (Call.submit A command basis sealing).exec A w = (.ok (), { w.record command sealing with tables := t' }) := by
  rw [Call.exec_submit, World.commit, RedbStore.apply, h]
  rfl

theorem readSecret_exec {s : SecretRecord} (h : secretAt A.codec w.tables name = some s) :
    (readSecret A name).exec A w = (.ok s, w) := by
  have hread : (Call.read (RedbStore.secret A.codec name)).exec A w = (.ok (some s), w) := by
    rw [Call.exec_read, secret_eq_ok.mpr h]
    rfl
  rw [readSecret, Call.exec_bind_ok hread]
  rfl

theorem ensure_exec {check : Except ApiError Unit} (h : check = .ok ()) :
    (Call.ensure check).exec A w = (.ok (), w) := by
  rw [Call.exec_ensure, h]

theorem ofOption_exec {α : Type} {e : ApiError} {o : Option α} {a : α} (h : o = some a) :
    (Call.ofOption e o).exec A w = (.ok a, w) := by
  rw [Call.exec_ofOption, h]
  rfl

/-- What `sealVersion` returns is a valid sealing, and the world is as it was. -/
theorem sealVersion_exec_ok {number : Int32} {payload : Payload} {d : Draws} {x : Sealing}
    (h : (sealVersion A name number payload d).exec A w = (.ok x, w')) :
    x.Valid A name number ∧ x.payload = payload ∧ w = w' := by
  obtain ⟨key, w₁, hkey, h⟩ := Call.exec_bind_eq_ok h
  obtain ⟨hgenerate, rfl⟩ := Call.kms_exec_ok hkey
  obtain ⟨ciphertext, w₂, hseal, h⟩ := Call.exec_bind_eq_ok h
  obtain ⟨hciphertext, rfl⟩ := Call.ofOption_exec_ok hseal
  obtain ⟨state, w₃, hstate, h⟩ := Call.exec_bind_eq_ok h
  obtain ⟨_, rfl⟩ := Call.read_exec_ok hstate
  cases h
  exact ⟨⟨rfl, rfl, rfl, A.kms.decrypt_generate hgenerate, d.nonce, rfl, hciphertext⟩, rfl, rfl⟩

/-- A check of a lockout only reads. -/
theorem checkKey_exec (cfg : AuthConfig) (key : String) (now : Int64) (w : World) :
    ∃ r, (checkKey A cfg key now).exec A w = (r, w) := by
  unfold checkKey
  split_ifs
  · exact ⟨.ok (), rfl⟩
  · rw [Call.exec_bind, Call.exec_read]
    cases RedbStore.lockout A.codec key w.tables with
    | error e => exact ⟨.error (.ofStore e), rfl⟩
    | ok found =>
        simp only [Except.mapError]
        split
        · split_ifs
          · exact ⟨.error .tooManyRequests, rfl⟩
          · exact ⟨.ok (), rfl⟩
        · exact ⟨.ok (), rfl⟩

/-- A failure is recorded without failing. -/
theorem recordKey_exec (cfg : AuthConfig) (key : String) (now : Int64) (w : World) :
    ∃ w', (recordKey A cfg key now).exec A w = (.ok (), w') := by
  unfold recordKey
  split_ifs
  · exact ⟨w, rfl⟩
  · exact ⟨_, rfl⟩

theorem checkKey_exec_ok {cfg : AuthConfig} {key : String} {now : Int64}
    (h : (checkKey A cfg key now).exec A w = (.ok (), w')) : w = w' := by
  obtain ⟨r, hr⟩ := checkKey_exec (A := A) cfg key now w
  exact (Prod.mk.inj (hr.symm.trans h)).2

/-- A secret that is stored with its current version is read. -/
theorem getSecret_exec {secret : SecretRecord} {version : VersionRecord} {value : SecretValue} (clientIp : String)
    (d : Draws) (hname : isValidSecretName name = true)
    (hfound : RedbStore.currentVersion A.codec name w.tables = .ok (some (secret, version)))
    (hvalue : readVersion A name secret version = .ok value) :
    ∃ w', (getSecret A name clientIp d).exec A w = (.ok value, w') := by
  have hknown : knownName name = .ok () := if_pos hname
  have hread : (Call.read (RedbStore.currentVersion A.codec name)).exec A w = (.ok (some (secret, version)), w) := by
    rw [Call.exec_read, hfound]
    rfl
  have hopen : (Call.ofExcept id (readVersion A name secret version)).exec A w = (.ok value, w) := by
    rw [Call.exec_ofExcept, hvalue]
    rfl
  rw [getSecret, Call.exec_bind_ok (ensure_exec hknown), Call.exec_bind_ok hread]
  dsimp only
  rw [Call.exec_bind_ok hopen]
  exact ⟨_, Call.exec_bind_ok (audit_exec ..)⟩

end Parts

end HyperionVault
