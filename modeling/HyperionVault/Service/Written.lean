import HyperionVault.Service.Concrete
import HyperionVault.Service.Serially

/-!
# A read returns what was last written

Whatever calls ran one after the other, `getSecret` answers as the ledger of the committed calls does.

* `ServiceCall.changes`, `Payload.afterCall` : the calls that write a value, and what they make of it;
* `exists_last_create`, `ledger_since` : a secret in the ledger, told from the call that created it;
* `getSecret_of_agrees` : a read returns the entry of the ledger;
* `get_returns_last_written` : reads after any serial run.
-/

namespace HyperionVault
open Lib

/-! ## The ledger since a create -/

/-- The call writes a new value under this name. -/
def ServiceCall.changes (name : String) : ServiceCall → Bool
  | .update _ other req _ => other = name && req.changesValue
  | .rotate _ _ other _ => other = name
  | _ => false

/-- What the payload of a secret is after a call. -/
def Payload.afterCall (name : String) (payload : Payload) : ServiceCall → Payload
  | .update _ other req _ => if other = name then payload.updated req else payload
  | .rotate _ _ other d => if other = name then payload.rotated d.token else payload
  | _ => payload

theorem Payload.updated_of_not_changesValue {req : UpdateSecretRequest} (h : req.changesValue = false)
    (payload : Payload) : payload.updated req = payload := by
  simp only [UpdateSecretRequest.changesValue, Bool.or_eq_false_iff, Option.isSome_eq_false_iff,
    Option.isNone_iff_eq_none] at h
  obtain ⟨⟨hvalue, husername⟩, hpassword⟩ := h
  cases payload with
  | value text => rw [Payload.updated, hvalue, Option.getD_none]
  | userpass login => rw [Payload.updated, husername, hpassword, Option.getD_none, Option.getD_none]

@[simp] theorem Payload.format_afterCall (name : String) (payload : Payload) (call : ServiceCall) :
    (payload.afterCall name call).format = payload.format := by
  cases call with
  | update =>
      simp only [Payload.afterCall]
      split_ifs
      · exact Payload.format_updated _ _
      · rfl
  | rotate =>
      simp only [Payload.afterCall]
      split_ifs
      · exact Payload.format_rotated _ _
      · rfl
  | _ => rfl

theorem Payload.format_afterCalls (name : String) (payload : Payload) (calls : List ServiceCall) :
    (calls.foldl (Payload.afterCall name) payload).format = payload.format := by
  induction calls generalizing payload with
  | nil => rfl
  | cons call rest ih => rw [List.foldl_cons, ih, Payload.format_afterCall]

theorem Life.payload_update (life : Life) (req : UpdateSecretRequest) (now : Int64) :
    (life.update req now).payload = life.payload.updated req := by
  simp only [Life.update]
  split_ifs with hchanges
  · rfl
  · rw [Payload.updated_of_not_changesValue (Bool.eq_false_iff.mpr hchanges)]

theorem Life.version_update (life : Life) (req : UpdateSecretRequest) (now : Int64) :
    (life.update req now).version = life.version + if req.changesValue then 1 else 0 := by
  simp only [Life.update, Life.version]
  split_ifs
  · simp [Life.supersede]
  · rfl

theorem Life.kind_update (life : Life) (req : UpdateSecretRequest) (now : Int64) :
    (life.update req now).kind = life.kind := by
  simp only [Life.update]
  split_ifs <;> rfl

/-- The entry of a name after a call that neither creates nor deletes it. -/
theorem after_kept {ledger : Ledger} {name : String} {life : Life} {call : ServiceCall} (h : ledger name = some life)
    (hcreates : ¬ call.creates name) (hdeletes : ¬ call.deletes name) :
    ∃ life', ledger.after call name = some life' ∧ life'.kind = life.kind ∧
      life'.version = life.version + (if call.changes name then 1 else 0) ∧
      life'.payload = life.payload.afterCall name call := by
  cases call with
  | create actor req d => exact ⟨life, (Function.update_of_ne (Ne.symm hcreates) ..).trans h, rfl, rfl, rfl⟩
  | delete actor other d => exact ⟨life, (Function.update_of_ne (Ne.symm hdeletes) ..).trans h, rfl, rfl, rfl⟩
  | update actor other req d =>
      by_cases hname : other = name
      · subst hname
        refine ⟨life.update req d.now, ?_, life.kind_update req _, ?_, ?_⟩
        · rw [Ledger.after, Function.update_self, h, Option.map_some]
        · simp [ServiceCall.changes, life.version_update]
        · simp [Payload.afterCall, life.payload_update]
      · refine ⟨life, (Function.update_of_ne (Ne.symm hname) ..).trans h, rfl, ?_, ?_⟩
        · simp [ServiceCall.changes, hname]
        · simp [Payload.afterCall, hname]
  | rotate actor clientIp other d =>
      by_cases hname : other = name
      · subst hname
        refine ⟨life.rotate d.token d.now, ?_, rfl, ?_, ?_⟩
        · rw [Ledger.after, Function.update_self, h, Option.map_some]
        · simp [ServiceCall.changes, Life.rotate, Life.version, Life.supersede]
        · simp [Payload.afterCall, Life.rotate, Life.supersede]
      · refine ⟨life, (Function.update_of_ne (Ne.symm hname) ..).trans h, rfl, ?_, ?_⟩
        · simp [ServiceCall.changes, hname]
        · simp [Payload.afterCall, hname]
  | expireGrace now => exact ⟨life, h, rfl, rfl, rfl⟩
  | rewrap => exact ⟨life, h, rfl, rfl, rfl⟩

/-- The entry of a name after calls that neither create nor delete it. -/
theorem foldl_after_kept {name : String} {calls : List ServiceCall}
    (hkept : ∀ call ∈ calls, ¬ call.creates name ∧ ¬ call.deletes name) {ledger : Ledger} {life : Life}
    (h : ledger name = some life) :
    ∃ life', calls.foldl Ledger.after ledger name = some life' ∧ life'.kind = life.kind ∧
      life'.version = life.version + (calls.filter (·.changes name)).length ∧
      life'.payload = calls.foldl (Payload.afterCall name) life.payload := by
  induction calls generalizing ledger life with
  | nil => exact ⟨life, h, rfl, rfl, rfl⟩
  | cons call rest ih =>
      obtain ⟨hcreates, hdeletes⟩ := hkept call List.mem_cons_self
      obtain ⟨next, hnext, hkind, hversion, hpayload⟩ := after_kept h hcreates hdeletes
      obtain ⟨last, hlast, hkind', hversion', hpayload'⟩ :=
        ih (fun c hc => hkept c (List.mem_cons_of_mem _ hc)) hnext
      refine ⟨last, hlast, hkind'.trans hkind, ?_, ?_⟩
      · rw [hversion', hversion, List.filter_cons]
        split_ifs
        · rw [List.length_cons]
          omega
        · omega
      · rw [hpayload', hpayload, List.foldl_cons]

/-- The calls since the last create of a name. -/
theorem exists_last_create {name : String} {calls : List ServiceCall} (h : CreatedIn name calls) :
    ∃ before actor req d after, calls = before ++ .create actor req d :: after ∧ req.name = name ∧
      ∀ call ∈ after, ¬ call.creates name ∧ ¬ call.deletes name := by
  induction calls using List.reverseRecOn with
  | nil =>
      obtain ⟨before, call, after, hsplit, _⟩ := h
      simp at hsplit
  | append_singleton calls call ih =>
      by_cases hcreates : call.creates name
      · cases call with
        | create actor req d => exact ⟨calls, actor, req, d, [], rfl, hcreates, fun c hc => absurd hc List.not_mem_nil⟩
        | _ => exact hcreates.elim
      · obtain ⟨hbefore, hdeletes⟩ := (createdIn_concat_iff.mp h).resolve_left hcreates
        obtain ⟨before, actor, req, d, after, rfl, hname, hkept⟩ := ih hbefore
        refine ⟨before, actor, req, d, after ++ [call], by simp, hname, fun c hc => ?_⟩
        rcases List.mem_append.mp hc with hc | hc
        · exact hkept c hc
        · rw [List.mem_singleton.mp hc]
          exact ⟨hcreates, hdeletes⟩

/-- What the ledger says of a secret since it was created. -/
theorem ledger_since {name : String} (before : List ServiceCall) (actor : String)
    (req : CreateSecretRequest) (d : Draws)
    {after : List ServiceCall} (hname : req.name = name)
    (hkept : ∀ call ∈ after, ¬ call.creates name ∧ ¬ call.deletes name) :
    ∃ life, ledgerOf (before ++ .create actor req d :: after) name = some life ∧ life.kind = req.kind ∧
      life.version = 1 + (after.filter (·.changes name)).length ∧
      life.payload = after.foldl (Payload.afterCall name) (createdPayload req d.token) := by
  have hcreated : (ledgerOf before).after (.create actor req d) name = some (.created req d.token) := by
    rw [← hname]
    exact Function.update_self ..
  obtain ⟨life, hlife, hkind, hversion, hpayload⟩ := foldl_after_kept hkept hcreated
  refine ⟨life, ?_, hkind, ?_, hpayload⟩
  · rw [ledgerOf, List.foldl_append, List.foldl_cons]
    exact hlife
  · rw [hversion]
    rfl

/-! ## Reads -/

section Reading
variable {A : AppState} {S : Int64 → Prop} {ledger : Ledger} {w : World} {name : String}

theorem secret_eq_none (h : SecretInv A.codec w.tables) (hnone : secretAt A.codec w.tables name = none) :
    RedbStore.secret A.codec name w.tables = .ok none := lookup_eq_none h.secrets_decode hnone

/-- A secret that is not there is reported as not found. -/
theorem getSecret_exec_none (h : SecretInv A.codec w.tables) (hnone : secretAt A.codec w.tables name = none)
    (clientIp : String) (d : Draws) : ((getSecret A name clientIp d).exec A w).1 = .error .notFound := by
  have hread : (Call.read (RedbStore.currentVersion A.codec name)).exec A w = (.ok none, w) := by
    rw [Call.exec_read, RedbStore.currentVersion, secret_eq_none h hnone]
    rfl
  rw [getSecret]
  by_cases hname : isValidSecretName name = true
  · have hknown : knownName name = .ok () := if_pos hname
    rw [Call.exec_bind_ok (ensure_exec hknown), Call.exec_bind_ok hread]
    dsimp only
    rw [Call.exec_bind_ok (audit_exec ..)]
    rfl
  · have hknown : (Call.ensure (knownName name)).exec A w = (.error .notFound, w) := by
      rw [Call.exec_ensure, knownName, if_neg hname]
    rw [Call.exec_bind_error hknown]

/-- The row of a version that the ledger knows opens to its payload. -/
theorem openVersion_of_view (h : VaultInv A (unwrapping A) w) {number : Int32} {v : VersionRecord} {payload : Payload}
    (hname : isValidSecretName name = true) (hnumber : 1 ≤ number)
    (hv : versionAt A.codec w.tables (versionKey name number) = some v)
    (hpayload : (w.view A name).payload number = some payload) :
    openVersion A name v.version v = .ok (payload.bytes A) := by
  obtain ⟨x, hx, hrel⟩ := h.row name number v hname hnumber hv
  have hsame : x.payload = payload := by
    simpa only [World.view, hx, Option.map_some, Option.some.injEq] using hpayload
  obtain ⟨rfl, _⟩ := h.store.owned_versionKey hname hnumber hv
  rw [openVersion_of_unwraps (h.sealed _ _ _ x hx) hrel, hsame]

/-- A read returns the entry of the ledger. -/
theorem getSecret_of_agrees (h : Agrees A S ledger w) (name clientIp : String) (d : Draws) :
    (ledger name = none → ((getSecret A name clientIp d).exec A w).1 = .error .notFound) ∧
    ∀ life, ledger name = some life → ∃ value, ((getSecret A name clientIp d).exec A w).1 = .ok value ∧
      value.name = name ∧ value.kind = life.kind ∧ value.version.toInt = life.version ∧
        value.payload = life.payload := by
  constructor
  · intro hnone
    exact getSecret_exec_none h.vault.store (h.not_stored hnone) clientIp d
  · intro life hlife
    obtain ⟨secret, hs, htells, hkind, hformat, _⟩ := h.stored hlife
    obtain ⟨hname, hpos⟩ := h.vault.store.valid name secret hs
    obtain ⟨v, hv, _⟩ := h.vault.store.current name secret hs
    have hversion := (h.vault.store.owned_versionKey hname hpos hv).1
    have hopen := openVersion_of_view h.vault hname hpos hv htells.current
    have hdecode : decodePayload A secret.format (life.payload.bytes A) = .ok life.payload := by
      rw [hformat]
      exact decodePayload_bytes A life.payload
    have hvalue : readVersion A name secret v = .ok ⟨name, secret.kind, v.version, life.payload, v.createdAt⟩ :=
      bind_eq_ok.mpr ⟨_, hopen, bind_eq_ok.mpr ⟨_, hdecode, rfl⟩⟩
    obtain ⟨w', hexec⟩ := getSecret_exec clientIp d hname (currentVersion_eq_ok.mpr ⟨hs, hv⟩) hvalue
    refine ⟨_, congrArg Prod.fst hexec, rfl, hkind, ?_, rfl⟩
    exact (congrArg Int32.toInt hversion).trans htells.count

end Reading

/-- The create of a new secret is committed. -/
theorem create_commits (C : Codec) (actor : String) (now : Int64) (key : Nat) {token : String}
    {req : CreateSecretRequest}
    {grace : Int64} {payload : Payload} {w : World}
    (hcheck : checkCreate (nodeWith C) req token = .ok (grace, payload)) (hname : isValidSecretName req.name = true)
    (hfresh : w.tables.secrets.get req.name = none) (hstate : w.tables.kmsRewrap = .empty) :
    (ServiceCall.create actor req (drawsOf now key token)).commits (nodeWith C) w = true := by
  have hone : (1 : Int32) ≤ 1 := le_refl 1
  have hchecked : (Call.ofExcept id (checkCreate (nodeWith C) req token)).exec (nodeWith C) w =
      (.ok (grace, payload), w) := by
    rw [Call.exec_ofExcept, hcheck]
    rfl
  have hseal : (sealVersion (nodeWith C) req.name 1 payload (drawsOf now key token)).exec (nodeWith C) w =
      (.ok (sealingOf (nodeWith C) req.name 1 payload now key), w) :=
    Proc.exec_of_reaches (seal_runs (K := fun _ _ => True) trivial trivial hstate)
  let x := sealingOf (nodeWith C) req.name 1 payload now key
  have hsubmit : ∃ w₁, (Call.submit (nodeWith C) (.createSecret (newSecretRecord req payload.format grace now) x.record)
      .nothing (some x)).exec (nodeWith C) w = (.ok (), w₁) :=
    ⟨_, submit_exec .nothing (createSecret_eq hname hone hfresh)⟩
  obtain ⟨w₁, hsubmit⟩ := hsubmit
  have hexec : ∃ value w', (createSecretCall (nodeWith C) actor req (drawsOf now key token)).exec (nodeWith C) w =
      (.ok value, w') :=
    ⟨_, _, (Call.exec_bind_ok hchecked).trans ((Call.exec_bind_ok hseal).trans
      ((Call.exec_bind_ok hsubmit).trans (Call.exec_bind_ok (audit_exec ..))))⟩
  obtain ⟨value, w', hexec⟩ := hexec
  rw [ServiceCall.commits, hexec]
  rfl

/-- However calls ran one after the other: a name is not found exactly if it was never created or was deleted
since. Otherwise a read returns what the last create and the committed updates and rotations since it have made
of its payload, under the number of those that wrote a value, with the kind and the format of the create. -/
theorem get_returns_last_written (A : AppState) (w : World) (hw : w.Start) (calls : List ServiceCall)
    (name clientIp : String) (d : Draws) :
    let done := committed A w calls
    let result := ((getSecret A name clientIp d).exec A
      (System.serial (World.perform A) (ServiceCall.body A) w calls)).1
    (result = .error .notFound ↔ ¬ CreatedIn name done) ∧
    (CreatedIn name done → ∃ before actor req d₀ after value,
      done = before ++ .create actor req d₀ :: after ∧ req.name = name ∧
      (∀ call ∈ after, ¬ call.creates name ∧ ¬ call.deletes name) ∧
      result = .ok value ∧ value.name = name ∧ value.kind = req.kind ∧
      value.payload.format = (createdPayload req d₀.token).format ∧
      value.version.toInt = 1 + (after.filter (·.changes name)).length ∧
      value.payload = after.foldl (Payload.afterCall name) (createdPayload req d₀.token)) := by
  intro done result
  have hagrees : Agrees A (fun _ => True) (ledgerOf done)
      (System.serial (World.perform A) (ServiceCall.body A) w calls) :=
    agrees_serial calls (fun _ _ => trivial) (agrees_start hw)
  obtain ⟨hnone, hsome⟩ := getSecret_of_agrees hagrees name clientIp d
  refine ⟨⟨fun hnotFound hcreated => ?_, fun hcreated => hnone ?_⟩, fun hcreated => ?_⟩
  · obtain ⟨life, hlife⟩ := Option.isSome_iff_exists.mp ((ledgerOf_isSome_iff done name).mpr hcreated)
    obtain ⟨value, hvalue, _⟩ := hsome life hlife
    cases hnotFound.symm.trans hvalue
  · exact Option.not_isSome_iff_eq_none.mp fun hlife => hcreated ((ledgerOf_isSome_iff done name).mp hlife)
  · obtain ⟨before, actor, req, d₀, after, hsplit, hname, hkept⟩ := exists_last_create hcreated
    obtain ⟨life, hlife, hkind, hversion, hpayload⟩ := ledger_since before actor req d₀ hname hkept
    obtain ⟨value, hvalue, hvname, hvkind, hvversion, hvpayload⟩ := hsome life (hsplit ▸ hlife)
    refine ⟨before, actor, req, d₀, after, value, hsplit, hname, hkept, hvalue, hvname, hvkind.trans hkind, ?_, ?_, ?_⟩
    · rw [hvpayload, hpayload, Payload.format_afterCalls]
    · rw [hvversion, hversion]
      push_cast
      rfl
    · exact hvpayload.trans hpayload

/-- A secret that is created in an empty store is read as it was written. -/
theorem created_secret_is_read :
    let A := nodeWith jsonCodec
    let result := ((getSecret A "a" "127.0.0.1" (drawsOf 1 0 "")).exec A
      (System.serial (World.perform A) (ServiceCall.body A) freshWorld [createA 1])).1
    freshWorld.Start ∧ committed A freshWorld [createA 1] = [createA 1] ∧
      ∃ value, result = .ok value ∧ value.version.toInt = 1 ∧ value.payload = .value "v" := by
  intro A result
  have hcommits : (createA 1).commits A freshWorld = true :=
    create_commits jsonCodec "root" 0 1 checkCreate_opaqueRequest isValidSecretName_a rfl rfl
  have hcommitted : committed A freshWorld [createA 1] = [createA 1] := by
    rw [committed, if_pos hcommits]
    rfl
  have hread := (get_returns_last_written A freshWorld freshWorld_start [createA 1] "a" "127.0.0.1" (drawsOf 1 0 "")).2
  rw [hcommitted] at hread
  obtain ⟨before, actor, req, d₀, after, value, hsplit, _, _, hvalue, _, _, _, hversion, hpayload⟩ :=
    hread ⟨[], createA 1, [], rfl, rfl, fun c hc => absurd hc List.not_mem_nil⟩
  have hlengths := congrArg List.length hsplit
  rw [List.length_append, List.length_cons, List.length_cons, List.length_nil] at hlengths
  obtain rfl : before = [] := List.length_eq_zero_iff.mp (by omega)
  obtain rfl : after = [] := List.length_eq_zero_iff.mp (by omega)
  cases hsplit
  exact ⟨freshWorld_start, hcommitted, value, hvalue, hversion, hpayload⟩

end HyperionVault
