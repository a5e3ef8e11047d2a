import HyperionVault.Service.Rewrap
import HyperionVault.Store.Invariant

/-!
# Calls that are not interrupted

What a call does when it is scheduled several times in a row, in a state where its reads and its command
succeed. These are the building blocks of runs that are written out.

* `Call.Runs` : the call performs `n` operations and returns; `Call.Gets` : it gets as far as `n` operations;
  `Call.Next` : its next operation after `n`;
* `read_runs`, `submit_runs`, `sealVersion_runs`, ... : the parts of the calls;
* `serve_gets`, `serve_next`, ... : such a call in the running service.
-/

namespace HyperionVault
open Lib

section Alone
variable (A : AppState) (K : World → Op → Prop)

/-- The call performs `n` operations that `K` allows and returns `a`. -/
abbrev Call.Runs {α : Type} (n : Nat) (c : Call α) (w : World) (a : α) (w' : World) : Prop :=
  Proc.Reaches (World.perform A) K n c.run w (.ret (.ok a)) w'

/-- The call performs `n` operations that `K` allows, and may not have returned yet. -/
abbrev Call.Gets {α : Type} (n : Nat) (c : Call α) (w w' : World) : Prop :=
  ∃ q, Proc.Reaches (World.perform A) K n c.run w q w'

/-- After `n` operations that `K` allows, the next operation of the call is `op`. -/
abbrev Call.Next {α : Type} (n : Nat) (c : Call α) (w : World) (op : Op) (w' : World) : Prop :=
  Proc.NextOp (World.perform A) K n c.run w op w'

variable {A K} {α β : Type} {w w' w'' : World} {n m : Nat} {c : Call α} {f : α → Call β} {a : α} {op : Op}
  {command : Command} {basis : Basis} {sealing : Option Sealing} {t' : Tables} {name : String} {number : Int32}
  {payload : Payload} {d : Draws} {secret : SecretRecord} {x : Sealing}

theorem runs_bind {b : β} (h : c.Runs A K n w a w')
    (h' : (f a).Runs A K m w' b w'') : (c >>= f).Runs A K (n + m) w b w'' :=
  Proc.reaches_bind_ret h h'

theorem gets_of_runs (h : c.Runs A K n w a w') : c.Gets A K n w w' := ⟨_, h⟩

theorem gets_bind_left (h : c.Gets A K n w w') :
    (c >>= f).Gets A K n w w' := by
  obtain ⟨q, hq⟩ := h
  exact ⟨_, Proc.reaches_bind hq _⟩

theorem gets_bind (h : c.Runs A K n w a w') (h' : (f a).Gets A K m w' w'') : (c >>= f).Gets A K (n + m) w w'' := by
  obtain ⟨q, hq⟩ := h'
  exact ⟨q, Proc.reaches_bind_ret h hq⟩

theorem next_bind_left (h : c.Next A K n w op w') :
    (c >>= f).Next A K n w op w' :=
  Proc.nextOp_bind h _

theorem next_bind (h : c.Runs A K n w a w') (h' : (f a).Next A K m w' op w'') : (c >>= f).Next A K (n + m) w op w'' :=
  Proc.nextOp_bind_ret h h'

theorem pure_runs (a : α) : (pure a : Call α).Runs A K 0 w a w := ⟨rfl, rfl⟩

theorem ofExcept_runs {ε : Type} {toApi : ε → ApiError} {r : Except ε α} (h : r = .ok a) :
    (Call.ofExcept toApi r).Runs A K 0 w a w := by
  subst h
  exact ⟨rfl, rfl⟩

theorem ofOption_runs {e : ApiError} {o : Option α} (h : o = some a) :
    (Call.ofOption e o).Runs A K 0 w a w := by
  subst h
  exact ⟨rfl, rfl⟩

theorem lift_runs {p : Proc World Op α}
    (h : Proc.Reaches (World.perform A) K n p w (.ret a) w') : Call.Runs A K n (ExceptT.lift p) w a w' :=
  Proc.reaches_bind_ret (m := 0) h ⟨rfl, rfl⟩

theorem read_runs {query : Tables → StoreResult α} (hK : K w .read) (h : query w.tables = .ok a) :
    (Call.read query).Runs A K 1 w a w :=
  runs_bind (lift_runs (Proc.reaches_perform hK)) (ofExcept_runs h)

theorem kms_runs {request : Int64 → Except String α} (hK : K w .kms) (h : request w.material = .ok a) :
    (Call.kms request).Runs A K 1 w a w :=
  runs_bind (lift_runs (Proc.reaches_perform hK)) (ofExcept_runs h)

theorem commit_eq (h : applyCommand A.codec A.nodeId command w.tables = (.ok (), t')) :
    w.commit A command sealing = { w.record command sealing with tables := t' } := by
  simp only [World.commit, RedbStore.apply, h]

theorem perform_submit (command : Command) (basis : Basis) (sealing : Option Sealing) :
    World.perform A (.submit command basis sealing) w = w.commit A command sealing := rfl

theorem submit_runs
    (hK : K w (.submit command basis sealing)) (h : applyCommand A.codec A.nodeId command w.tables = (.ok (), t')) :
    (Call.submit A command basis sealing).Runs A K 1 w () { w.record command sealing with tables := t' } := by
  rw [← commit_eq h]
  refine runs_bind (lift_runs (Proc.reaches_perform hK)) (ofExcept_runs ?_)
  simp only [RedbStore.apply, h]

theorem submit_next :
    (Call.submit A command basis sealing).Next A K 0 w (.submit command basis sealing) w :=
  next_bind_left (Proc.nextOp_bind Proc.nextOp_perform _)

theorem readSecret_runs (hK : K w .read)
    (h : secretAt A.codec w.tables name = some secret) : (readSecret A name).Runs A K 1 w secret w :=
  runs_bind (read_runs hK (secret_eq_ok.mpr h)) (ofOption_runs rfl)

/-- Sealing while no pass has been recorded as complete. -/
theorem sealVersion_runs {key : DataKey} {ciphertext : Bytes} (hkms : K w .kms) (hread : K w .read)
    (hkey : A.kms.generateDataKey w.material d.dataKey (kmsContext name number) = .ok key)
    (hseal : A.aead.sealWith key.plaintext d.nonce (aadFor name number) (payload.bytes A) = some ciphertext)
    (hstate : w.tables.kmsRewrap = .empty) :
    (sealVersion A name number payload d).Runs A K 2 w {
      record := {
        version := number
        kmsKeyId := key.keyId
        wrappedDek := key.wrapped
        nonce := d.nonce.val
        ciphertext := ciphertext
        aad := aadFor name number
        createdAt := d.now
        expiresAt := none
        wrappedRotationAt := some 0 }
      dek := key.plaintext
      payload := payload } w := by
  have hnone : RedbStore.kmsRewrapState A.codec w.tables = .ok none := by
    unfold RedbStore.kmsRewrapState RedbStore.lookup
    rw [hstate, Table.get_empty]
  refine runs_bind (n := 1) (m := 1) (kms_runs hkms hkey) ?_
  refine runs_bind (n := 0) (m := 1) (ofOption_runs hseal) ?_
  exact runs_bind (n := 1) (m := 0) (read_runs hread hnone) (pure_runs _)

/-- The command of a rotation that was computed from the record `basis`. -/
theorem rotateCommand_eq (basis : SecretRecord) (now : Int64) (version : VersionRecord) {t : Tables}
    {prev : VersionRecord} (hname : isValidSecretName name = true)
    (hnumber : 1 ≤ version.version)
    (hs : secretAt A.codec t name = some secret) (hcur : secret.currentVersion = basis.currentVersion)
    (hne : versionKey name version.version ≠ versionKey name basis.currentVersion)
    (hprev : versionAt A.codec t (versionKey name basis.currentVersion) = some prev) (hnone : prev.expiresAt = none) :
    applyCommand A.codec A.nodeId (rotateCommand name basis now version) t = (.ok (), { t with
      secrets := t.secrets.insert name (A.codec.secret.encode { secret with
        currentVersion := version.version
        nextRotationAt := some (nextRotationUnix now (basis.rotationIntervalSecs.getD 0))
        updatedAt := now })
      versions := (t.versions.insert (versionKey name version.version) (A.codec.version.encode version)).insert
        (versionKey name basis.currentVersion) (A.codec.version.encode { prev with
          expiresAt := some (graceExpiryUnix now basis.graceSecs) }) }) :=
  putVersion_eq version hname hnumber hs hcur hne hprev hnone none none none _ now

/-- A rotation up to its command. -/
theorem rotateCommit_submits (hK : K w .read) (hs : secretAt A.codec w.tables name = some secret)
    (hkind : secret.kind = .automatic) (hnumber : nextVersion secret.currentVersion = some number)
    (hpayload : (rotatePayload A name secret d).Runs A K n w payload w)
    (hseal : (sealVersion A name number payload d).Runs A K 2 w x w) :
    Proc.Reaches (World.perform A) K (1 + (n + 2)) (rotateCommit A name d).run w (do
      Call.submit A (rotateCommand name secret d.now x.record) (.record secret) (some x)
      return (secret, x) : Call (SecretRecord × Sealing)).run w := by
  refine Proc.reaches_bind_ret (readSecret_runs hK hs) ?_
  dsimp only [ExceptT.bindCont]
  rw [if_neg (not_not.mpr hkind), ← Nat.zero_add (n + 2)]
  refine Proc.reaches_bind_ret (ofOption_runs hnumber) (Proc.reaches_bind_ret hpayload ?_)
  exact Proc.reaches_bind_ret (m := 0) hseal ⟨rfl, rfl⟩

theorem rotateCommit_next (hK : K w .read) (hs : secretAt A.codec w.tables name = some secret)
    (hkind : secret.kind = .automatic) (hnumber : nextVersion secret.currentVersion = some number)
    (hpayload : (rotatePayload A name secret d).Runs A K n w payload w)
    (hseal : (sealVersion A name number payload d).Runs A K 2 w x w) :
    (rotateCommit A name d).Next A K (1 + (n + 2)) w
      (.submit (rotateCommand name secret d.now x.record) (.record secret) (some x)) w :=
  ⟨_, rotateCommit_submits hK hs hkind hnumber hpayload hseal⟩

theorem rotateCommit_runs (hK : K w .read) (hs : secretAt A.codec w.tables name = some secret)
    (hkind : secret.kind = .automatic) (hnumber : nextVersion secret.currentVersion = some number)
    (hpayload : (rotatePayload A name secret d).Runs A K n w payload w)
    (hseal : (sealVersion A name number payload d).Runs A K 2 w x w)
    (hsubmit : K w (.submit (rotateCommand name secret d.now x.record) (.record secret) (some x)))
    (hok : applyCommand A.codec A.nodeId (rotateCommand name secret d.now x.record) w.tables = (.ok (), t')) :
    (rotateCommit A name d).Runs A K (1 + (n + 3)) w (secret, x)
      { w.withSealing name x.record.version (some x) with tables := t' } :=
  Proc.reaches_trans (m := 1) (rotateCommit_submits hK hs hkind hnumber hpayload hseal)
    (runs_bind (m := 0) (submit_runs hsubmit hok) (pure_runs _))

theorem loadUserpass_runs {v : VersionRecord} {login : UserPass} (hK : K w .read)
    (hv : versionAt A.codec w.tables (versionKey name number) = some v)
    (hlogin : openUserpass A name number v = .ok login) : (loadUserpass A name number).Runs A K 1 w login w := by
  refine runs_bind (n := 1) (m := 0) (read_runs hK (version_eq_ok.mpr hv)) ?_
  exact runs_bind (n := 0) (m := 0) (ofOption_runs rfl) (ofExcept_runs hlogin)

theorem loadCurrentUserpass_runs {s : SecretRecord} {v : VersionRecord} {login : UserPass}
    (hK : K w .read) (hs : secretAt A.codec w.tables name = some s)
    (hv : versionAt A.codec w.tables (versionKey name s.currentVersion) = some v)
    (hlogin : openUserpass A name v.version v = .ok login) : (loadCurrentUserpass A name).Runs A K 1 w login w := by
  have hcurrent : RedbStore.currentVersion A.codec name w.tables = .ok (some (s, v)) := by
    simp only [RedbStore.currentVersion, secret_eq_ok.mpr hs, version_eq_ok.mpr hv]
  refine runs_bind (n := 1) (m := 0) (read_runs hK hcurrent) ?_
  exact runs_bind (n := 0) (m := 0) (ofOption_runs rfl) (ofExcept_runs hlogin)

theorem perform_attempt (A : AppState) {a : Attempt} (h : w.accepts a = true) (name : String) (version : Int32) :
    w.perform A (.attempt a name version) = { w with
      passwords := Function.update w.passwords a.role (some a.newPassword)
      accepted := (name, version) :: w.accepted
      attempts := w.attempts + 1 } := by
  simp only [World.perform, h, if_true]

/-- A target whose first host accepts the login of another secret. -/
theorem applyTarget_runs (name : String) (previous version : Int32) (now : Int64) (pg : PgRoleTarget) (new : UserPass)
    {login hostport host : String} {current : UserPass} {port : UInt16} {rest : List String}
    (hlogin : pg.loginSecret = some login) (hne : login ≠ name)
    (hcurrent : (loadCurrentUserpass A login).Runs A K 1 w current w) (hcheck : A.pgTargets.check pg = .ok ())
    (hhosts : pg.hosts = hostport :: rest) (hsplit : splitHostport hostport = (host, port))
    (hK : K w (.attempt ⟨host, port, pg.database, current, pg.role.getD new.username, new.password⟩ name version))
    (hanswer : w.tryRotate ⟨host, port, pg.database, current, pg.role.getD new.username, new.password⟩ = .ok true) :
    (applyTarget A name previous version now pg new).Runs A K 2 w () (w.perform A (.attempt
      ⟨host, port, pg.database, current, pg.role.getD new.username, new.password⟩ name version)) := by
  have hlogins : (targetLogins A name previous now pg).Runs A K 1 w [current] w := by
    unfold targetLogins
    rw [hlogin]
    dsimp only
    rw [if_pos hne]
    exact runs_bind (n := 1) (m := 0) hcurrent (pure_runs _)
  have hattempt : Proc.Reaches (World.perform A) K 1
      (applyPassword A pg current (pg.role.getD new.username) new.password name version) w (.ret (.ok ()))
      (w.perform A (.attempt ⟨host, port, pg.database, current, pg.role.getD new.username, new.password⟩
        name version)) := by
    unfold applyPassword
    rw [hcheck, hhosts]
    unfold tryHosts
    rw [hsplit]
    refine Proc.reaches_bind_ret (n := 1) (m := 0) (Proc.reaches_perform hK) ?_
    rw [hanswer]
    exact ⟨rfl, rfl⟩
  refine runs_bind (n := 1) (m := 1) hlogins ?_
  rw [if_neg (show ¬[current].isEmpty = true from Bool.false_ne_true)]
  exact runs_bind (n := 1) (m := 0) (lift_runs hattempt) (pure_runs _)

theorem audit_runs (actor clientIp : Option String) (action : String) (secretName : Option String) (outcome : String)
    (d : Draws) (hK : ∀ entry, K w (.submit (.appendAudit entry) .nothing none)) :
    ∃ entry, (audit A actor clientIp action secretName outcome d).Runs A K 1 w ()
      (w.commit A (.appendAudit entry) none) :=
  ⟨_, runs_bind (n := 1) (m := 0) (lift_runs (Proc.reaches_perform (hK _))) (pure_runs _)⟩

/-- A rotation whose password the target accepts, after its command. -/
theorem rotateFinish_runs (actor : String) (clientIp : Option String) {pg : PgRoleTarget} {new : UserPass}
    (htarget : secret.target = some (.pgReplica pg))
    (hpayload : x.payload = .userpass new)
    (happly : (applyTarget A name secret.currentVersion x.record.version d.now pg new).Runs A K 2 w () w')
    (hK : ∀ entry, K w' (.submit (.appendAudit entry) .nothing none)) :
    ∃ entry, (rotateFinish A actor clientIp name d secret x).Runs A K 3 w
      ⟨name, secret.kind, x.record.version, x.payload, d.now⟩ (w'.commit A (.appendAudit entry) none) := by
  obtain ⟨entry, haudit⟩ := audit_runs (A := A) (some actor) clientIp "rotate" (some name) "ok" d hK
  have happlied : (rotateApply A name secret x d).Runs A K 2 w () w' := by
    unfold rotateApply
    rw [htarget, hpayload]
    exact happly
  refine ⟨entry, runs_bind (n := 2) (m := 1) (lift_runs happlied) ?_⟩
  exact runs_bind (n := 1) (m := 0) haudit (pure_runs _)

/-! Calls that begin and are scheduled several times in a row. -/

variable {P : ServiceCall → Prop} {f : α → Reply}

theorem serve_gets (calls : List (ServiceCall × Proc World Op (ApiResult Reply))) (call : ServiceCall)
    (hbody : call.body A = c.reply f) (hP : P call) (h : c.Gets A K n w w') :
    ∃ q, RunsTo (serve A) (System.Allows P K) ⟨w, calls⟩ (.start call :: List.replicate n (.step calls.length))
      ⟨w', calls ++ [(call, q)]⟩ := by
  obtain ⟨q, hq⟩ := gets_bind_left (f := fun a => pure (f a)) h
  refine ⟨q, System.run_call _ _ calls call hP ?_⟩
  rw [hbody]
  exact hq

theorem serve_next (calls : List (ServiceCall × Proc World Op (ApiResult Reply))) (call : ServiceCall)
    (hbody : call.body A = c.reply f) (hP : P call) (h : c.Next A K n w op w') :
    ∃ next, RunsTo (serve A) (System.Allows P K) ⟨w, calls⟩ (.start call :: List.replicate n (.step calls.length))
      ⟨w', calls ++ [(call, .act op next)]⟩ := by
  obtain ⟨next, hnext⟩ := next_bind_left (f := fun a => pure (f a)) h
  refine ⟨next, System.run_call _ _ calls call hP ?_⟩
  rw [hbody]
  exact hnext

/-- The rest of a call, up to its reply. -/
theorem serve_rest {calls : List (ServiceCall × Proc World Op (ApiResult Reply))} (place : Nat) {call : ServiceCall}
    (hcall : calls[place]? = some (call, c.reply f)) (h : c.Runs A K n w a w') :
    RunsTo (serve A) (System.Allows P K) ⟨w, calls⟩ (List.replicate n (.step place))
      ⟨w', calls.set place (call, .ret (.ok (f a)))⟩ :=
  System.run_reaches _ _ hcall (runs_bind (m := 0) h (pure_runs (f a)))

/-- A rotation up to its command is left with what follows. -/
theorem serve_commit (calls : List (ServiceCall × Proc World Op (ApiResult Reply))) {actor name : String}
    {clientIp : Option String}
    (hP : P (.rotate actor clientIp name d)) (h : (rotateCommit A name d).Runs A K n w (secret, x) w') :
    RunsTo (serve A) (System.Allows P K) ⟨w, calls⟩
      (.start (.rotate actor clientIp name d) :: List.replicate n (.step calls.length))
      ⟨w', calls ++ [(.rotate actor clientIp name d,
        (rotateFinish A actor clientIp name d secret x).reply .value)]⟩ :=
  System.run_call _ _ calls _ hP (Proc.reaches_bind (Proc.reaches_bind_ret (m := 0) h ⟨rfl, rfl⟩) _)

end Alone

end HyperionVault
