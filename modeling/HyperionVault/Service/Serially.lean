import HyperionVault.Service.Ledger
import HyperionVault.Service.Views

/-!
# Calls one after the other

Calls that run one after the other keep the tables in agreement with the ledger of those among them whose
command was committed: the secrets of the ledger are there, with their present payload under the number of the
current version, and the versions before it are there until a sweep finds them expired.

* `ServiceCall.commits`, `committed` : the calls whose command is committed;
* `Told`, `Agrees` : what is seen of a secret is what the ledger says;
* `vault_exec` : every row opens to what was sealed, whatever calls run;
* `agrees_exec`, `agrees_serial` : one call, and all of them.
-/

namespace HyperionVault
open Lib

/-! ## Committed calls -/

section Committed
variable (A : AppState)

/-- The world after a call that runs alone. -/
def ServiceCall.leaves (call : ServiceCall) (w : World) : World := ((call.body A).exec (World.perform A) w).2

/-- Whether the command of the call is committed. A rotation goes on after its command and may fail there. -/
def ServiceCall.commits (w : World) : ServiceCall → Bool
  | .create actor req d => ((createSecretCall A actor req d).exec A w).1.isOk
  | .update _ name req d => ((updateCommit A name req d).exec A w).1.isOk
  | .rotate _ _ name d => ((rotateCommit A name d).exec A w).1.isOk
  | .delete actor name d => ((deleteSecretCall A actor name d).exec A w).1.isOk
  | .expireGrace _ => false
  | .rewrap .. => false

/-- The calls of a serial run whose command is committed. -/
def committed (w : World) : List ServiceCall → List ServiceCall
  | [] => []
  | call :: rest =>
      if call.commits A w then call :: committed (call.leaves A w) rest else committed (call.leaves A w) rest

end Committed

/-! ## Every row opens -/

section Vault
variable {A : AppState} {w : World}

/-- Between the operations of a pass that runs alone no name begins a new incarnation. -/
structure PassRel (w w' : World) : Prop where
  later : Later w w'
  incarnation : w'.incarnation = w.incarnation

instance : IsPreorder World PassRel where
  refl w := ⟨refl_of Later w, rfl⟩
  trans _ _ _ h h' := ⟨trans_of Later h.later h'.later, h'.incarnation.trans h.incarnation⟩

theorem incarnation_commit {command : Command} {sealing : Option Sealing}
    (h : (w.record command sealing).incarnation = w.incarnation) :
    (w.commit A command sealing).incarnation = w.incarnation :=
  commit_of (P := fun w' => w'.incarnation = w.incarnation) rfl fun _ _ => h

/-- Only calls of a pass submit re-wraps. -/
theorem currentRewrap_of_not_pass {I : World → Prop} {R : World → World → Prop} {call : ServiceCall} {op : Op}
    (hcall : call.isPass = false) (hop : Prepared A I R call w op) : CurrentRewrap A w op := by
  cases hop with
  | rewrap caller read rewrapped => exact absurd (hcall.symm.trans caller) Bool.false_ne_true
  | _ => exact trivial

theorem pass_perform {call : ServiceCall} {op : Op} (hcall : call.isPass = true) (h : VaultInv A (unwrapping A) w)
    (hop : Prepared A (VaultInv A (unwrapping A)) PassRel call w op) :
    VaultInv A (unwrapping A) (w.perform A op) ∧ PassRel w (w.perform A op) := by
  have hcurrent : CurrentRewrap A w op := by
    cases hop with
    | rewrap caller read rewrapped =>
        obtain ⟨w₀, _, hrel, hinc, _⟩ := read
        intro v _ _
        rw [hrel.incarnation]
        exact hinc
    | _ => exact trivial
  obtain ⟨hvault, hlater⟩ := unwrapping_perform PassRel.later h hop hcurrent
  refine ⟨hvault, hlater, ?_⟩
  cases hop with
  | read => rfl
  | kms => rfl
  | busy => rfl
  | audit => exact incarnation_commit rfl
  | completed => exact incarnation_commit rfl
  | rewrap => exact incarnation_commit rfl
  | sweep caller => rw [caller] at hcall; cases hcall
  | delete caller => rw [caller] at hcall; cases hcall
  | create caller => rw [caller] at hcall; cases hcall
  | updateVersion caller => rw [caller] at hcall; cases hcall
  | updateMeta caller => rw [caller] at hcall; cases hcall
  | rotate caller => rw [caller] at hcall; cases hcall
  | retry caller => rw [caller] at hcall; cases hcall
  | attempt caller => rw [caller] at hcall; cases hcall

/-- A call that runs alone leaves every row such that it opens to what was sealed. -/
theorem vault_exec (h : VaultInv A (unwrapping A) w) (call : ServiceCall) :
    VaultInv A (unwrapping A) (call.leaves A w) := by
  cases hcall : call.isPass with
  | true =>
      exact (Proc.exec_guards (body_guards (R := PassRel) VaultInv.store (fun hr => hr.later.accepted) call h) h
        fun _ _ hi hop => pass_perform hcall hi hop).1
  | false =>
      exact (Proc.exec_guards (body_guards (R := Later) VaultInv.store (fun hr => hr.accepted) call h) h
        fun _ _ hi hop => unwrapping_perform (fun hr => hr) hi hop (currentRewrap_of_not_pass hcall hop)).1

end Vault

/-! ## The ledger and the world -/

/-- When the version stops being accepted. -/
def Past.expiry (p : Past) : Int64 := graceExpiryUnix p.supersededAt p.grace

/-- What is seen of a secret is what its life says; `number` is the number of its current version. A superseded
version is there with its expiry, unless it has been swept, at a time of `S`, when it had expired. -/
structure Tells (S : Int64 → Prop) (life : Life) (v : NameView) (number : Int32) : Prop where
  count : number.toInt = life.version
  secret : v.secret = some ⟨life.kind, life.payload.format, life.target, life.grace, number⟩
  current : v.payload number = some life.payload
  unexpired : v.expiry number = some none
  past : ∀ (i : Nat) p, life.past[i]? = some p → ∀ k : Int32, k.toInt = i + 1 → v.payload k = some p.payload ∧
    (v.expiry k = some (some p.expiry) ∨ v.expiry k = none ∧ ∃ e, S e ∧ p.expiry ≤ e)

def Told (S : Int64 → Prop) : Option Life → NameView → Prop
  | none, v => v.secret = none
  | some life, v => ∃ number, Tells S life v number

/-- Under every name is seen what the ledger says. -/
def Sees (A : AppState) (S : Int64 → Prop) (ledger : Ledger) (w : World) : Prop :=
  ∀ name, Told S (ledger name) (w.view A name)

structure Agrees (A : AppState) (S : Int64 → Prop) (ledger : Ledger) (w : World) : Prop where
  vault : VaultInv A (unwrapping A) w
  sees : Sees A S ledger w

section Agreement
variable {A : AppState} {S : Int64 → Prop} {ledger : Ledger} {w w' : World} {name : String}

theorem agrees_start (h : w.Start) : Agrees A S (fun _ => none) w := by
  refine ⟨vault_start h, fun name => ?_⟩
  simp only [Told, World.view, secretAt, h.secrets, recordAt_empty, Option.map_none]

theorem sees_of_view (h : Sees A S ledger w) (hview : w'.view A = w.view A) : Sees A S ledger w' := by
  intro name
  rw [hview]
  exact h name

/-- A change under one name. -/
theorem sees_update (h : Sees A S ledger w) {life : Option Life} (hname : Told S life (w'.view A name))
    (hother : ∀ n ≠ name, w'.view A n = w.view A n) : Sees A S (Function.update ledger name life) w' := by
  intro n
  by_cases hn : n = name
  · subst hn
    rw [Function.update_self]
    exact hname
  · rw [Function.update_of_ne hn, hother n hn]
    exact h n

/-- A secret that is stored is in the ledger. -/
theorem Agrees.life (h : Agrees A S ledger w) {secret : SecretRecord}
    (hs : secretAt A.codec w.tables name = some secret) :
    ∃ life, ledger name = some life ∧ Tells S life (w.view A name) secret.currentVersion ∧
      secret.kind = life.kind ∧ secret.format = life.payload.format ∧ secret.graceSecs = life.grace ∧
      secret.target = life.target := by
  have hview : (w.view A name).secret = some secret.view := by simp only [World.view, hs, Option.map_some]
  have htold := h.sees name
  cases hlife : ledger name with
  | none =>
      rw [hlife] at htold
      cases hview.symm.trans htold
  | some life =>
      rw [hlife] at htold
      obtain ⟨number, htells⟩ := htold
      have hsame := Option.some.inj (hview.symm.trans htells.secret)
      simp only [SecretRecord.view, SecretView.mk.injEq] at hsame
      obtain ⟨hkind, hformat, htarget, hgrace, rfl⟩ := hsame
      exact ⟨life, rfl, htells, hkind, hformat, hgrace, htarget⟩

/-- A secret in the ledger is stored. -/
theorem Agrees.stored (h : Agrees A S ledger w) {life : Life} (hlife : ledger name = some life) :
    ∃ secret, secretAt A.codec w.tables name = some secret ∧ Tells S life (w.view A name) secret.currentVersion ∧
      secret.kind = life.kind ∧ secret.format = life.payload.format ∧ secret.graceSecs = life.grace ∧
      secret.target = life.target := by
  have htold := h.sees name
  rw [hlife] at htold
  obtain ⟨number, htells⟩ := htold
  obtain ⟨secret, hs, hview⟩ := Option.map_eq_some_iff.mp htells.secret
  simp only [SecretRecord.view, SecretView.mk.injEq] at hview
  obtain ⟨hkind, hformat, htarget, hgrace, rfl⟩ := hview
  exact ⟨secret, hs, htells, hkind, hformat, hgrace, htarget⟩

theorem Agrees.not_stored (h : Agrees A S ledger w) (hlife : ledger name = none) :
    secretAt A.codec w.tables name = none := by
  have htold := h.sees name
  rw [hlife] at htold
  exact Option.map_eq_none_iff.mp htold

/-- A new version supersedes the current one. -/
theorem tells_supersede {life : Life} {v v' : NameView} {number next : Int32} (h : Tells S life v number)
    (hnext : next.toInt = number.toInt + 1) (payload : Payload) (now grace : Int64)
    (hsecret : v'.secret = some ⟨life.kind, payload.format, life.target, grace, next⟩)
    (hpayload : ∀ k, v'.payload k = if k = next then some payload else v.payload k)
    (hexpiry : ∀ k, 1 ≤ k → v'.expiry k = if k = number then some (some (graceExpiryUnix now life.grace))
      else if k = next then some none else v.expiry k) :
    Tells S { life.supersede payload now with grace := grace } v' next := by
  have hnumber := h.count
  have hone {k : Int32} {i : Nat} (hk : k.toInt = i + 1) : 1 ≤ k := by
    rw [Int32.le_iff_toInt_le, hk, show (1 : Int32).toInt = 1 from rfl]
    omega
  have hne : number ≠ next := by
    rintro rfl
    omega
  unfold Life.version at hnumber
  refine ⟨?_, hsecret, ?_, ?_, fun i p hp k hk => ?_⟩
  · simp only [Life.version, Life.supersede, List.length_append, List.length_singleton]
    omega
  · rw [hpayload, if_pos rfl]
    rfl
  · have hnextOne : 1 ≤ next := hone (i := life.past.length + 1) (by push_cast; omega)
    rw [hexpiry next hnextOne, if_neg hne.symm, if_pos rfl]
  · have hknext : k ≠ next := by
      rintro rfl
      have hlt := (List.getElem?_eq_some_iff.mp hp).1
      simp only [Life.supersede, List.length_append, List.length_singleton] at hlt
      omega
    rw [hpayload, if_neg hknext, hexpiry k (hone hk)]
    simp only [Life.supersede] at hp
    rcases Nat.lt_or_ge i life.past.length with hi | hi
    · -- an older version
      rw [List.getElem?_append_left hi] at hp
      have hknumber : k ≠ number := by
        rintro rfl
        omega
      rw [if_neg hknumber, if_neg hknext]
      exact h.past i p hp k hk
    · -- the version that is superseded now
      obtain ⟨hi', hp'⟩ := List.getElem?_eq_some_iff.mp hp
      rw [List.length_append, List.length_singleton] at hi'
      obtain rfl : i = life.past.length := by omega
      rw [List.getElem_concat_length rfl] at hp'
      subst hp'
      obtain rfl : k = number := Int32.toInt_inj.mp (by omega)
      rw [if_pos rfl]
      exact ⟨h.current, Or.inl rfl⟩

end Agreement

/-! ## The calls up to their commands -/

section Calls
variable {A : AppState} {w w' : World} {α β : Type} {c : Call α} {f : α → Call β} {P : β → World → Prop}
  {command : Command} {basis : Basis} {sealing : Option Sealing} {name : String}

theorem submit_exec_cases (A : AppState) (command : Command) (basis : Basis) (sealing : Option Sealing) (w : World) :
    (∃ e, (Call.submit A command basis sealing).exec A w = (.error e, w)) ∨
      ∃ t', applyCommand A.codec A.nodeId command w.tables = (.ok (), t') ∧
        (Call.submit A command basis sealing).exec A w = (.ok (), { w.record command sealing with tables := t' }) := by
  rcases hok : applyCommand A.codec A.nodeId command w.tables with ⟨outcome, t'⟩
  cases outcome with
  | ok u => exact Or.inr ⟨t', rfl, submit_exec basis hok⟩
  | error e =>
      refine Or.inl ⟨.ofStore e, ?_⟩
      rw [Call.exec_submit, World.commit, RedbStore.apply, hok]
      rfl

theorem view_of_exec_quiet {r : ApiResult α} (h : c.run.Only QuietOp)
    (hexec : c.exec A w = (r, w')) : w'.view A = w.view A := by
  have hview := view_exec_quiet (A := A) h w
  rw [hexec] at hview
  exact hview

/-- A call either fails and nothing of it is seen, or what `P` says. -/
def FailsUnseenOr {α : Type} (A : AppState) (c : Call α) (w : World) (P : α → World → Prop) : Prop :=
  (∃ e w', c.exec A w = (.error e, w') ∧ w'.view A = w.view A) ∨ ∃ a w', c.exec A w = (.ok a, w') ∧ P a w'

/-- A part that only reads. -/
theorem failsUnseen_bind (hquiet : c.run.Only QuietOp)
    (h : ∀ a, c.exec A w = (.ok a, w) → FailsUnseenOr A (f a) w P) (hsame : ∀ a w', c.exec A w = (.ok a, w') → w = w') :
    FailsUnseenOr A (c >>= f) w P := by
  rcases Call.exec_cases A c f w with ⟨e, w', hc, hexec⟩ | ⟨a, w', hc, hexec⟩
  · exact Or.inl ⟨e, w', hexec, view_of_exec_quiet hquiet hc⟩
  · obtain rfl := hsame a w' hc
    unfold FailsUnseenOr
    rw [hexec]
    exact h a hc

theorem failsUnseen_submit {P : Unit → World → Prop}
    (h : ∀ t', applyCommand A.codec A.nodeId command w.tables = (.ok (), t') →
      P () { w.record command sealing with tables := t' }) :
    FailsUnseenOr A (Call.submit A command basis sealing) w P := by
  rcases submit_exec_cases A command basis sealing w with ⟨e, hexec⟩ | ⟨t', hok, hexec⟩
  · exact Or.inl ⟨e, w, hexec, rfl⟩
  · exact Or.inr ⟨(), _, hexec, h t' hok⟩

/-- A command after which nothing fails and nothing is seen. -/
theorem failsUnseen_submit_bind
    {f : Unit → Call β} {P : World → Prop} (hview : ∀ {w₁ w₂ : World}, w₂.view A = w₁.view A → P w₁ → P w₂)
    (hrest : ∀ w₁, ∃ b w₂, (f ()).exec A w₁ = (.ok b, w₂) ∧ w₂.view A = w₁.view A)
    (h : ∀ t', applyCommand A.codec A.nodeId command w.tables = (.ok (), t') →
      P { w.record command sealing with tables := t' }) :
    FailsUnseenOr A (Call.submit A command basis sealing >>= f) w fun _ => P := by
  rcases submit_exec_cases A command basis sealing w with ⟨e, hexec⟩ | ⟨t', hok, hexec⟩
  · exact Or.inl ⟨e, w, Call.exec_bind_error hexec, rfl⟩
  · obtain ⟨b, w₂, hlast, hsame⟩ := hrest { w.record command sealing with tables := t' }
    exact Or.inr ⟨b, w₂, (Call.exec_bind_ok hexec).trans hlast, hview hsame (h t' hok)⟩

theorem failsUnseen_throw {e : ApiError} {P : α → World → Prop} : FailsUnseenOr A (throw e : Call α) w P :=
  Or.inl ⟨e, w, rfl, rfl⟩

theorem failsUnseen_ofExcept {ε : Type} {toApi : ε → ApiError} {r : Except ε α}
    (h : ∀ a, r = .ok a → FailsUnseenOr A (f a) w P) :
    FailsUnseenOr A (Call.ofExcept toApi r >>= f) w P :=
  failsUnseen_bind (ofExcept_only _ _) (fun a ha => h a (Call.ofExcept_exec_ok ha).1)
    fun _ _ ha => (Call.ofExcept_exec_ok ha).2

theorem failsUnseen_ofOption {e : ApiError} {o : Option α}
    (h : ∀ a, o = some a → FailsUnseenOr A (f a) w P) : FailsUnseenOr A (Call.ofOption e o >>= f) w P :=
  failsUnseen_bind (ofOption_only _ _) (fun a ha => h a (Call.ofOption_exec_ok ha).1)
    fun _ _ ha => (Call.ofOption_exec_ok ha).2

theorem readSecret_exec_ok {secret : SecretRecord}
    (h : (readSecret A name).exec A w = (.ok secret, w')) : secretAt A.codec w.tables name = some secret ∧ w = w' := by
  obtain ⟨found, w₁, hread, h⟩ := Call.exec_bind_eq_ok h
  obtain ⟨hfound, rfl⟩ := Call.read_exec_ok hread
  obtain ⟨rfl, rfl⟩ := Call.ofOption_exec_ok h
  exact ⟨secret_eq_ok.mp hfound, rfl⟩

theorem failsUnseen_readSecret {f : SecretRecord → Call β}
    (h : ∀ secret, secretAt A.codec w.tables name = some secret → FailsUnseenOr A (f secret) w P) :
    FailsUnseenOr A (readSecret A name >>= f) w P :=
  failsUnseen_bind (readSecret_only A) (fun a ha => h a (readSecret_exec_ok ha).1) fun _ _ ha =>
    (readSecret_exec_ok ha).2

theorem failsUnseen_sealVersion {number : Int32} {payload : Payload} {d : Draws} {f : Sealing → Call β}
    (h : ∀ x : Sealing, x.Valid A name number → x.payload = payload → FailsUnseenOr A (f x) w P) :
    FailsUnseenOr A (sealVersion A name number payload d >>= f) w P :=
  failsUnseen_bind (sealVersion_only A _ _ _)
    (fun a ha => h a (sealVersion_exec_ok ha).1 (sealVersion_exec_ok ha).2.1) fun _ _ ha => (sealVersion_exec_ok ha).2.2

end Calls

/-! ## What the calls write is what the ledger says -/

theorem createdPayload_of_buildCreatePayload {req : CreateSecretRequest} {token : String} {payload : Payload}
    (h : buildCreatePayload req token = .ok payload) : payload = createdPayload req token := by
  have hgiven {check : String → ApiResult Unit} {missing text : String} {given : Option String}
      (hok : givenOr req.kind token check missing given = .ok text) : text = given.getD token := by
    cases given with
    | some supplied =>
        obtain ⟨_, _, hok⟩ := bind_eq_ok.mp hok
        cases hok
        rfl
    | none =>
        unfold givenOr at hok
        cases hkind : req.kind with
        | manual =>
            rw [hkind] at hok
            cases hok
        | automatic =>
            rw [hkind] at hok
            cases hok
            rfl
  unfold buildCreatePayload at h
  unfold createdPayload
  cases husername : req.username with
  | some username =>
      rw [husername] at h
      simp only [Option.isSome_some, Bool.true_or, if_true] at h
      split_ifs at h
      obtain ⟨_, _, h⟩ := bind_eq_ok.mp h
      obtain ⟨password, hpassword, h⟩ := bind_eq_ok.mp h
      cases h
      rw [hgiven hpassword]
  | none =>
      rw [husername] at h
      cases hpassword : req.password with
      | some password =>
          rw [hpassword] at h
          simp only [Option.isSome_none, Option.isSome_some, Bool.or_true, if_true] at h
          split_ifs at h
      | none =>
          rw [hpassword] at h
          obtain ⟨value, hvalue, h⟩ := bind_eq_ok.mp h
          cases h
          rw [hgiven hvalue]

theorem checkCreate_ok {A : AppState} {req : CreateSecretRequest} {token : String} {grace : Int64} {payload : Payload}
    (h : checkCreate A req token = .ok (grace, payload)) :
    grace = req.gracePeriodSecs.getD 0 ∧ payload = createdPayload req token := by
  obtain ⟨_, _, h⟩ := bind_eq_ok.mp h
  obtain ⟨secs, hgrace, h⟩ := bind_eq_ok.mp h
  obtain ⟨_, _, hgrace⟩ := bind_eq_ok.mp hgrace
  obtain ⟨_, _, hgrace⟩ := bind_eq_ok.mp hgrace
  obtain ⟨_, _, h⟩ := bind_eq_ok.mp h
  obtain ⟨_, _, h⟩ := bind_eq_ok.mp h
  obtain ⟨_, _, h⟩ := bind_eq_ok.mp h
  obtain ⟨built, hbuilt, h⟩ := bind_eq_ok.mp h
  cases h
  cases hgrace
  exact ⟨rfl, createdPayload_of_buildCreatePayload hbuilt⟩

/-- An update that passes the check of its format changes the secret exactly if it supplies something. -/
theorem changesValue_of_checkUpdateFormat {format : SecretFormat} {req : UpdateSecretRequest}
    (h : checkUpdateFormat format req = .ok ()) : req.changesValue = req.changesSecret format := by
  unfold checkUpdateFormat at h
  unfold UpdateSecretRequest.changesValue UpdateSecretRequest.changesSecret
  cases format with
  | opaqueValue =>
      have hnone := require_eq_ok.mp h
      simp only [Bool.not_eq_true', Bool.or_eq_false_iff] at hnone
      rw [hnone.1, hnone.2, Bool.or_false, Bool.or_false]
  | userpass =>
      have hnone := require_eq_ok.mp h
      simp only [Bool.not_eq_true'] at hnone
      rw [hnone, Bool.false_or]

section Steps
variable {A : AppState} {S : Int64 → Prop} {ledger : Ledger} {w w' : World} {name : String} {secret : SecretRecord}
  {life : Life} {payload : Payload} {d : Draws} {x : Sealing}

/-- The login read from the current version is the one of the ledger. -/
theorem loadUserpass_exec_ok (h : Agrees A S ledger w)
    (hs : secretAt A.codec w.tables name = some secret) {login stored : UserPass}
    (hstored : (w.view A name).payload secret.currentVersion = some (.userpass stored))
    (hexec : (loadUserpass A name secret.currentVersion).exec A w = (.ok login, w')) : login = stored ∧ w = w' := by
  obtain ⟨found, w₁, hread, hexec⟩ := Call.exec_bind_eq_ok hexec
  obtain ⟨hfound, rfl⟩ := Call.read_exec_ok hread
  obtain ⟨v, w₂, hoption, hexec⟩ := Call.exec_bind_eq_ok hexec
  obtain ⟨rfl, rfl⟩ := Call.ofOption_exec_ok hoption
  obtain ⟨hopen, rfl⟩ := Call.ofExcept_exec_ok hexec
  obtain ⟨hname, hpos⟩ := h.vault.store.valid name secret hs
  obtain ⟨x, hx, hrel⟩ := h.vault.row name _ v hname hpos (version_eq_ok.mp hfound)
  have hpayload : x.payload = .userpass stored := by
    simpa only [World.view, hx, Option.map_some, Option.some.injEq] using hstored
  rw [openUserpass, openVersion_of_unwraps (h.vault.sealed _ _ _ x hx) hrel, hpayload] at hopen
  have hdecoded : decodeUserpass A (A.userpass.encode stored) = .ok login := hopen
  rw [decodeUserpass, A.userpass.decode_encode] at hdecoded
  cases hdecoded
  exact ⟨rfl, rfl⟩

theorem updatePayload_exec_ok (h : Agrees A S ledger w) {req : UpdateSecretRequest}
    (hs : secretAt A.codec w.tables name = some secret)
    (hlife : Tells S life (w.view A name) secret.currentVersion) (hformat : secret.format = life.payload.format)
    (hchanges : req.changesSecret secret.format = true)
    (hexec : (updatePayload A name secret req).exec A w = (.ok payload, w')) :
    payload = life.payload.updated req ∧ w = w' := by
  unfold updatePayload at hexec
  cases hp : life.payload with
  | value text =>
      have hvalued : secret.format = .opaqueValue := by rw [hformat, hp]; rfl
      rw [hvalued] at hexec hchanges
      obtain ⟨value, hvalue⟩ := Option.isSome_iff_exists.mp hchanges
      obtain ⟨_, w₁, hcheck, hexec⟩ := Call.exec_bind_eq_ok hexec
      obtain ⟨_, rfl⟩ := Call.ensure_exec_ok hcheck
      cases hexec
      rw [hvalue]
      exact ⟨by rw [Payload.updated, hvalue]; rfl, rfl⟩
  | userpass stored =>
      have huserpass : secret.format = .userpass := by rw [hformat, hp]; rfl
      rw [huserpass] at hexec
      obtain ⟨login, w₁, hload, hexec⟩ := Call.exec_bind_eq_ok hexec
      obtain ⟨rfl, rfl⟩ := loadUserpass_exec_ok h hs (hlife.current.trans (congrArg some hp)) hload
      obtain ⟨_, w₂, hcheck, hexec⟩ := Call.exec_bind_eq_ok hexec
      obtain ⟨_, rfl⟩ := Call.ensure_exec_ok hcheck
      obtain ⟨_, w₃, hcheck', hexec⟩ := Call.exec_bind_eq_ok hexec
      obtain ⟨_, rfl⟩ := Call.ensure_exec_ok hcheck'
      cases hexec
      exact ⟨rfl, rfl⟩

theorem rotatePayload_exec_ok (h : Agrees A S ledger w) (hs : secretAt A.codec w.tables name = some secret)
    (hlife : Tells S life (w.view A name) secret.currentVersion) (hformat : secret.format = life.payload.format)
    (hexec : (rotatePayload A name secret d).exec A w = (.ok payload, w')) :
    payload = life.payload.rotated d.token ∧ w = w' := by
  unfold rotatePayload at hexec
  cases hp : life.payload with
  | value text =>
      have hvalued : secret.format = .opaqueValue := by rw [hformat, hp]; rfl
      rw [hvalued] at hexec
      cases hexec
      exact ⟨rfl, rfl⟩
  | userpass stored =>
      have huserpass : secret.format = .userpass := by rw [hformat, hp]; rfl
      rw [huserpass] at hexec
      obtain ⟨login, w₁, hload, hexec⟩ := Call.exec_bind_eq_ok hexec
      obtain ⟨rfl, rfl⟩ := loadUserpass_exec_ok h hs (hlife.current.trans (congrArg some hp)) hload
      cases hexec
      exact ⟨rfl, rfl⟩

/-- A version that a call puts in place of the current one. -/
theorem sees_putVersion (h : Agrees A S ledger w)
    {setDescription : Option String} {setInterval setGrace : Option Int64} {next : NextRotation} {now updatedAt : Int64}
    {t' : Tables} (hs : secretAt A.codec w.tables name = some secret)
    (hlife : Tells S life (w.view A name) secret.currentVersion) (hgrace : secret.graceSecs = life.grace)
    (hnext : nextVersion secret.currentVersion = some x.record.version) (hx : x.Valid A name x.record.version)
    (hpayload : x.payload.format = life.payload.format)
    (hok : putVersion A.codec name secret.currentVersion x.record (some (graceExpiryUnix now secret.graceSecs))
      setDescription setInterval setGrace next updatedAt w.tables = (.ok (), t')) :
    Sees A S (Function.update ledger name
      (some { life.supersede x.payload now with grace := setGrace.getD life.grace }))
      { w.withSealing name x.record.version (some x) with tables := t' } := by
  obtain ⟨s, hsview, _, hlt, hsecret, hpayloads, hexpiries, hother⟩ :=
    view_putVersion h.vault.store ⟨succ_of_nextVersion hnext, hx.unexpired, hx.aad, rfl⟩ hok
  refine sees_update h.sees ⟨x.record.version, ?_⟩ hother
  rw [hlife.secret] at hsview
  cases hsview
  have hpos := (h.vault.store.valid name secret hs).2
  have hsucc : x.record.version.toInt = secret.currentVersion.toInt + 1 := by
    have hone : 1 ≤ secret.currentVersion + 1 := succ_of_nextVersion hnext ▸ hpos.trans hlt.le
    rw [succ_of_nextVersion hnext, toInt_succ_of_pos hone]
  refine tells_supersede hlife hsucc x.payload now _ ?_ hpayloads ?_
  · rw [hpayload]
    exact hsecret
  · rw [← hgrace]
    exact hexpiries

/-- An audit entry is not seen and never fails. -/
theorem audit_exec_unseen {β : Type} (actor clientIp : Option String) (action : String) (secretName : Option String)
    (outcome : String) (d : Draws) (b : β) (w₁ : World) : ∃ b' w₂,
      (do audit A actor clientIp action secretName outcome d
          return b : Call β).exec A w₁ = (.ok b', w₂) ∧ w₂.view A = w₁.view A :=
  ⟨b, _, Call.exec_bind_ok (audit_exec ..), view_of_exec_quiet (audit_only A actor clientIp action secretName outcome d)
    (audit_exec ..)⟩

theorem create_sees (h : Agrees A S ledger w) (actor : String) (req : CreateSecretRequest) (d : Draws) :
    FailsUnseenOr A (createSecretCall A actor req d) w fun _ => Sees A S (ledger.after (.create actor req d)) := by
  refine failsUnseen_ofExcept fun checked hchecked => ?_
  obtain ⟨grace, payload⟩ := checked
  obtain ⟨rfl, rfl⟩ := checkCreate_ok hchecked
  refine failsUnseen_sealVersion fun x hx hpayload => ?_
  refine failsUnseen_submit_bind (fun hview hsees => sees_of_view hsees hview)
    (fun w₁ => audit_exec_unseen _ _ _ _ _ _ _ w₁) fun t' hok => ?_
  obtain ⟨hsecret, hcurrent, hexpiry, hother⟩ := view_create hx hok
  refine sees_update h.sees ⟨1, rfl, ?_, ?_, hexpiry, fun i p hp => ?_⟩ hother
  · exact hsecret
  · exact hcurrent.trans (congrArg some hpayload)
  · cases hp

theorem delete_sees (h : Agrees A S ledger w) (actor : String) (d : Draws) :
    FailsUnseenOr A (deleteSecretCall A actor name d) w fun _ => Sees A S (ledger.after (.delete actor name d)) := by
  refine failsUnseen_submit_bind (fun hview hsees => sees_of_view hsees hview) (fun w₁ => ?_) fun t' hok => ?_
  · exact ⟨(), _, audit_exec .., view_of_exec_quiet (audit_only A _ _ _ _ _ _) (audit_exec ..)⟩
  · obtain ⟨hnone, hother⟩ := view_delete (A := A) hok
    have htold : Told S none (({ w.record (.deleteSecret name) none with tables := t' } : World).view A name) := hnone
    exact sees_update h.sees htold hother

theorem update_sees (h : Agrees A S ledger w) (actor : String) (req : UpdateSecretRequest) (d : Draws) :
    FailsUnseenOr A (updateCommit A name req d) w fun _ => Sees A S (ledger.after (.update actor name req d)) := by
  refine failsUnseen_ofExcept fun _ _ => ?_
  refine failsUnseen_readSecret fun secret hs => ?_
  refine failsUnseen_ofExcept fun _ hformatOk => ?_
  obtain ⟨life, hlife, htells, hkind, hformat, hgrace, _⟩ := h.life hs
  have hledger : ledger.after (.update actor name req d) =
      Function.update ledger name (some (life.update req d.now)) := by
    rw [Ledger.after, hlife, Option.map_some]
  have hchangesValue := changesValue_of_checkUpdateFormat hformatOk
  rw [hledger]
  split_ifs with hchanges
  · refine failsUnseen_bind (updatePayload_only A secret req) (fun payload hpayload => ?_)
      fun _ _ hexec => (updatePayload_exec_ok h hs htells hformat hchanges hexec).2
    obtain ⟨rfl, _⟩ := updatePayload_exec_ok h hs htells hformat hchanges hpayload
    refine failsUnseen_ofOption fun number hnumber => ?_
    refine failsUnseen_sealVersion fun x hx hxp => ?_
    refine failsUnseen_submit fun t' hok => ?_
    have hversion := hx.version
    subst hversion
    have hsees := sees_putVersion h hs htells hgrace hnumber hx (by rw [hxp, Payload.format_updated]) hok
    rw [hxp] at hsees
    rw [Life.update, hchangesValue, if_pos hchanges]
    exact hsees
  · refine failsUnseen_submit fun t' hok => ?_
    obtain ⟨s, hsview, hsecret, hpayload, hexpiry, hother⟩ := view_updateMeta hok
    refine sees_update h.sees ⟨secret.currentVersion, ?_⟩ hother
    rw [htells.secret] at hsview
    cases hsview
    rw [Life.update, hchangesValue, if_neg hchanges]
    exact ⟨htells.count, hsecret, hpayload ▸ htells.current, hexpiry ▸ htells.unexpired,
      hpayload ▸ hexpiry ▸ htells.past⟩

theorem rotate_sees (h : Agrees A S ledger w) (actor : String) (clientIp : Option String) (d : Draws) :
    FailsUnseenOr A (rotateCommit A name d) w fun _ => Sees A S (ledger.after (.rotate actor clientIp name d)) := by
  refine failsUnseen_readSecret fun secret hs => ?_
  obtain ⟨life, hlife, htells, hkind, hformat, hgrace, _⟩ := h.life hs
  have hledger : ledger.after (.rotate actor clientIp name d) =
      Function.update ledger name (some (life.rotate d.token d.now)) := by
    rw [Ledger.after, hlife, Option.map_some]
  rw [hledger]
  split_ifs
  · exact failsUnseen_throw
  · refine failsUnseen_ofOption fun number hnumber => ?_
    refine failsUnseen_bind (rotatePayload_only A secret d) (fun payload hpayload => ?_)
      fun _ _ hexec => (rotatePayload_exec_ok h hs htells hformat hexec).2
    obtain ⟨rfl, _⟩ := rotatePayload_exec_ok h hs htells hformat hpayload
    refine failsUnseen_sealVersion fun x hx hxp => ?_
    refine failsUnseen_submit_bind (fun hview hsees => sees_of_view hsees hview) (fun w₁ => ⟨_, w₁, rfl, rfl⟩)
      fun t' hok => ?_
    have hversion := hx.version
    subst hversion
    have hsees := sees_putVersion h hs htells hgrace hnumber hx (by rw [hxp, Payload.format_rotated]) hok
    rw [hxp] at hsees
    exact hsees

/-- A sweep at a time of `S`. -/
theorem sweep_sees (h : Agrees A S ledger w) {now : Int64} (hnow : S now) :
    FailsUnseenOr A (Call.submit A (.expireGraceVersions now) .nothing none) w fun _ => Sees A S ledger := by
  refine failsUnseen_submit fun t' hok n => ?_
  obtain ⟨hsecret, hpayload, hexpiry⟩ := view_sweep (A := A) hok n
  have htold := h.sees n
  cases hlife : ledger n with
  | none =>
      rw [hlife] at htold
      exact hsecret.trans htold
  | some life =>
      rw [hlife] at htold
      obtain ⟨number, htells⟩ := htold
      refine ⟨number, htells.count, hsecret.trans htells.secret, ?_, ?_, fun i p hp k hk => ?_⟩
      · exact (congrFun hpayload number).trans htells.current
      · -- the current version has no expiry, so it is not swept
        rcases hexpiry number with hsame | ⟨_, e, _, hold⟩
        · exact hsame.trans htells.unexpired
        · cases htells.unexpired.symm.trans hold
      · obtain ⟨hpast, hrow⟩ := htells.past i p hp k hk
        refine ⟨(congrFun hpayload k).trans hpast, ?_⟩
        rcases hexpiry k with hsame | ⟨hgone, e, hle, hold⟩
        · exact hrow.imp hsame.trans (And.imp_left hsame.trans)
        · rcases hrow with hrow | ⟨hrow, _⟩
          · cases hrow.symm.trans hold
            exact Or.inr ⟨hgone, now, hnow, hle⟩
          · cases hrow.symm.trans hold

theorem sees_exec {α : Type} {c : Call α} {next : Ledger} (h : Sees A S ledger w)
    (hc : FailsUnseenOr A c w fun _ => Sees A S next) :
    Sees A S (if (c.exec A w).1.isOk then next else ledger) (c.exec A w).2 := by
  rcases hc with ⟨e, w', hexec, hview⟩ | ⟨a, w', hexec, hsees⟩
  · rw [hexec]
    exact sees_of_view h hview
  · rw [hexec]
    exact hsees

theorem view_reply {α : Type} (c : Call α) (reply : α → Reply) (w : World) :
    ((c.reply reply).exec (World.perform A) w).2.view A = (c.exec A w).2.view A :=
  view_exec_bind (f := fun a => pure (reply a)) (fun _ => trivial) w

/-- A call that runs alone keeps the world in agreement with the ledger. -/
theorem agrees_exec (h : Agrees A S ledger w) (call : ServiceCall) (hsweep : ∀ now, call = .expireGrace now → S now) :
    Agrees A S (if call.commits A w then ledger.after call else ledger) (call.leaves A w) := by
  refine ⟨vault_exec h.vault call, ?_⟩
  cases call with
  | create actor req d => exact sees_of_view (sees_exec h.sees (create_sees h actor req d)) (view_reply _ _ w)
  | update actor name req d =>
      refine sees_of_view (sees_exec h.sees (update_sees h actor req d)) ((view_reply _ _ w).trans ?_)
      refine view_exec_bind (fun _ => ?_) w
      refine audit_bind_only A fun _ => ?_
      exact readSecret_only A
  | rotate actor clientIp name d =>
      refine sees_of_view (sees_exec h.sees (rotate_sees h actor clientIp d)) ((view_reply _ _ w).trans ?_)
      exact view_exec_bind (fun _ => rotateFinish_calm _ _ _ _ _ _) w
  | delete actor name d => exact sees_of_view (sees_exec h.sees (delete_sees h actor d)) (view_reply _ _ w)
  | expireGrace now =>
      have hsees := sees_exec h.sees (sweep_sees h (hsweep now rfl))
      rw [ite_self] at hsees
      exact sees_of_view hsees (view_reply _ _ w)
  | rewrap node target d completedAt =>
      exact sees_of_view h.sees ((view_reply _ _ w).trans (view_exec_calm (force_only A _ _ _ _) w))

/-- Calls one after the other keep the world in agreement with the ledger of those whose command was committed. -/
theorem agrees_serial (calls : List ServiceCall) (hsweep : ∀ now, .expireGrace now ∈ calls → S now)
    (h : Agrees A S ledger w) :
    Agrees A S ((committed A w calls).foldl Ledger.after ledger)
      (System.serial (World.perform A) (ServiceCall.body A) w calls) := by
  induction calls generalizing w ledger with
  | nil => exact h
  | cons call rest ih =>
      have hcall := agrees_exec h call fun now hnow => hsweep now (hnow ▸ List.mem_cons_self)
      have hrest := ih (fun now hnow => hsweep now (List.mem_cons_of_mem _ hnow)) hcall
      rw [committed]
      split_ifs with hcommits
      · rw [if_pos hcommits] at hrest
        exact hrest
      · rw [if_neg hcommits] at hrest
        exact hrest

end Steps

end HyperionVault
