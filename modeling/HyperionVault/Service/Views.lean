import HyperionVault.Service.Exec
import HyperionVault.Service.Subjects
import HyperionVault.Service.Unwrapping

/-!
# What can be seen of a secret

Of a secret clients see its kind and format, its target and grace period, the numbers and payloads of its versions and
when they expire. Audit entries, attempts on a target and re-wrapped keys leave all that as it is.

* `SecretView`, `NameView`, `World.view` : what can be seen under a name;
* `view_quietOp`, `view_exec_quiet` : calls that leave the views alone;
* `view_create`, `view_putVersion`, `view_updateMeta`, `view_delete`, `view_sweep` : the commands;
* `CalmOp`, `view_calmOp`, `rotateFinish_calm` : re-wrap passes and what follows the command of a rotation.
-/

namespace HyperionVault
open Lib

structure SecretView where
  kind : SecretKind
  format : SecretFormat
  target : Option RotationTarget
  grace : Int64
  current : Int32

def SecretRecord.view (s : SecretRecord) : SecretView := ⟨s.kind, s.format, s.target, s.graceSecs, s.currentVersion⟩

/-- The secret of a name, what was sealed for each number since it was created, and when the rows expire. -/
@[ext] structure NameView where
  secret : Option SecretView
  payload : Int32 → Option Payload
  expiry : Int32 → Option (Option Int64)

def World.view (A : AppState) (w : World) (name : String) : NameView where
  secret := (secretAt A.codec w.tables name).map SecretRecord.view
  payload number := (w.sealings name (w.incarnation name) number).map Sealing.payload
  expiry number := (versionAt A.codec w.tables (versionKey name number)).map VersionRecord.expiresAt

section Views
variable {A : AppState} {w w' : World}

theorem view_congr (hsecrets : w'.tables.secrets = w.tables.secrets)
    (hversions : w'.tables.versions = w.tables.versions)
    (hsealings : w'.sealings = w.sealings) (hinc : w'.incarnation = w.incarnation) : w'.view A = w.view A := by
  funext name
  simp only [World.view, secretAt, versionAt, hsecrets, hversions, hsealings, hinc]

/-! ## Quiet calls -/

/-- A command outside of the two tables. -/
theorem view_commit_of_area {command : Command} {sealing : Option Sealing} (hrecord : w.record command sealing = w)
    (hsecrets : command.area ≠ .secrets) (hall : command.area ≠ .everything) :
    (w.commit A command sealing).view A = w.view A := by
  refine commit_of (P := fun w' => w'.view A = w.view A) rfl fun t' hok => ?_
  obtain ⟨hs, hv⟩ := (applyCommand_area hok).same .secrets hsecrets hall nofun
  rw [hrecord]
  exact view_congr hs hv rfl rfl

theorem view_quietOp {op : Op} (h : QuietOp op) : (w.perform A op).view A = w.view A := by
  cases h with
  | read => rfl
  | kms => rfl
  | attempt a name version =>
      obtain ⟨_, _, hw⟩ := perform_attempt_eq A w a name version
      rw [hw]
      rfl
  | audit entry => exact view_commit_of_area rfl nofun nofun
  | failure => exact view_commit_of_area rfl nofun nofun

theorem view_exec_quiet {α : Type} {c : Call α} (h : c.run.Only QuietOp) (w : World) :
    (c.exec A w).2.view A = w.view A :=
  Proc.exec_of_only (J := fun w' => w'.view A = w.view A) h (fun _ _ hop hw => (view_quietOp hop).trans hw) rfl

/-! ## Commands -/

theorem payload_withSealing (w : World) (name : String) (number : Int32) (x : Sealing) (n : String) (k : Int32) :
    ((w.withSealing name number (some x)).sealings n (w.incarnation n) k).map Sealing.payload =
      if n = name ∧ k = number then some x.payload else (w.sealings n (w.incarnation n) k).map Sealing.payload := by
  rw [sealings_withSealing]
  by_cases hn : n = name
  · subst hn
    by_cases hk : k = number
    · simp [hk]
    · simp [hk]
  · simp [hn]

/-- Another name is seen as before. -/
theorem view_other_withSealing {name n : String} (hn : n ≠ name) {number : Int32} {x : Sealing} {t' : Tables}
    (hrows : SameRows n w.tables t') :
    ({ w.withSealing name number (some x) with tables := t' } : World).view A n = w.view A n := by
  have hsecret : secretAt A.codec t' n = secretAt A.codec w.tables n := by
    rw [secretAt, secretAt, recordAt, recordAt, hrows.1]
  have hversion (k : Int32) : versionAt A.codec t' (versionKey n k) = versionAt A.codec w.tables (versionKey n k) := by
    rw [versionAt, versionAt, recordAt, recordAt, hrows.2]
  have hpayload (k : Int32) := payload_withSealing w name number x n k
  simp only [World.view, hsecret, hversion]
  congr 1
  funext k
  exact (hpayload k).trans (if_neg fun h => hn h.1)

theorem view_create {secret : SecretRecord} {x : Sealing} {t' : Tables} (hx : x.Valid A secret.name 1)
    (hok : createSecret A.codec secret x.record w.tables = (.ok (), t')) :
    let w' : World := { w.withSealing secret.name x.record.version (some x) with tables := t' }
    (w'.view A secret.name).secret = some secret.view ∧ (w'.view A secret.name).payload 1 = some x.payload ∧
      (w'.view A secret.name).expiry 1 = some none ∧ ∀ n ≠ secret.name, w'.view A n = w.view A n := by
  have hother (n : String) (hn : n ≠ secret.name) : SameRows n w.tables t' :=
    @applyCommand_rows A.codec A.nodeId _ _ (.createSecret secret x.record) _ _ rfl hn hok
  obtain ⟨_, _, rfl⟩ := createSecret_ok hok
  refine ⟨?_, ?_, ?_, fun n hn => view_other_withSealing hn (hother n hn)⟩
  · simp only [World.view, secretAt, recordAt_insert_self, Option.map_some]
  · refine (payload_withSealing w secret.name x.record.version x secret.name 1).trans (if_pos ⟨rfl, ?_⟩)
    exact hx.version.symm
  · simp only [World.view, versionAt, hx.version, recordAt_insert_self, Option.map_some, hx.unexpired]

/-- The views after a new version: the version before it expires, and the new one is current. -/
theorem view_putVersion (h : SecretInv A.codec w.tables) {name : String} {expectedCurrent : Int32} {x : Sealing}
    {expiry : Int64} {setDescription : Option String} {setInterval setGrace : Option Int64} {next : NextRotation}
    {updatedAt : Int64} {t' : Tables}
    (hi : (Command.putVersion name expectedCurrent x.record (some expiry) setDescription setInterval setGrace next
      updatedAt).Issued)
    (hok : putVersion A.codec name expectedCurrent x.record (some expiry) setDescription setInterval setGrace next
      updatedAt w.tables = (.ok (), t')) :
    let w' : World := { w.withSealing name x.record.version (some x) with tables := t' }
    ∃ s, (w.view A name).secret = some s ∧ s.current = expectedCurrent ∧ expectedCurrent < x.record.version ∧
      (w'.view A name).secret = some ⟨s.kind, s.format, s.target, setGrace.getD s.grace, x.record.version⟩ ∧
      (∀ k, (w'.view A name).payload k = if k = x.record.version then some x.payload else (w.view A name).payload k) ∧
      (∀ k, 1 ≤ k → (w'.view A name).expiry k = if k = expectedCurrent then some (some expiry)
        else if k = x.record.version then some none else (w.view A name).expiry k) ∧
      ∀ n ≠ name, w'.view A n = w.view A n := by
  have hother (n : String) (hn : n ≠ name) : SameRows n w.tables t' :=
    @applyCommand_rows A.codec A.nodeId _ _ (.putVersion name expectedCurrent x.record (some expiry) setDescription
      setInterval setGrace next updatedAt) _ _ rfl hn hok
  obtain ⟨secret, prev, _, hexpiry, hs, rfl, hone, hlt, _, hprev, hsecrets, hversions⟩ := putVersion_records h hi hok
  cases hexpiry
  obtain ⟨hname, hpos⟩ := h.valid name secret hs
  have hkey {k number : Int32} (hk : 1 ≤ k) (hnumber : 1 ≤ number) :
      versionKey name number = versionKey name k ↔ k = number :=
    ⟨fun he => by_contra fun hne => versionKey_ne_of_version_ne hname hnumber hk (Ne.symm hne) he, fun he => by rw [he]⟩
  refine ⟨secret.view, ?_, rfl, hlt, ?_, fun k => ?_, fun k hk => ?_, fun n hn =>
    view_other_withSealing hn (hother n hn)⟩
  · simp only [World.view, hs, Option.map_some]
  · simp only [World.view, hsecrets, if_true, Option.map_some, applyMeta_eq]
    rfl
  · refine (payload_withSealing w name x.record.version x name k).trans ?_
    by_cases hk : k = x.record.version
    · rw [if_pos ⟨rfl, hk⟩, if_pos hk]
    · rw [if_neg fun hand => hk hand.2, if_neg hk]
      rfl
  · simp only [World.view, hversions, hkey hk hpos, hkey hk hone]
    split_ifs
    · rfl
    · simp only [Option.map_some, hi.2.1]
    · rfl

theorem view_updateMeta {name : String} {expectedCurrent : Int32} {setDescription : Option String}
    {setInterval setGrace : Option Int64} {next : NextRotation} {updatedAt : Int64} {t' : Tables}
    (hok : updateMeta A.codec name expectedCurrent setDescription setInterval setGrace next updatedAt w.tables =
      (.ok (), t')) :
    let w' : World := { w with tables := t' }
    ∃ s, (w.view A name).secret = some s ∧
      (w'.view A name).secret = some { s with grace := setGrace.getD s.grace } ∧
      (w'.view A name).payload = (w.view A name).payload ∧ (w'.view A name).expiry = (w.view A name).expiry ∧
      ∀ n ≠ name, w'.view A n = w.view A n := by
  obtain ⟨value, secret, hget, hdec, _, rfl⟩ := updateMeta_ok hok
  have hs : secretAt A.codec w.tables name = some secret := recordAt_of_get hget hdec
  refine ⟨secret.view, ?_, ?_, rfl, rfl, fun n hn => ?_⟩
  · simp only [World.view, hs, Option.map_some]
  · simp only [World.view, secretAt, recordAt_insert_self, Option.map_some, applyMeta_eq]
    rfl
  · simp only [World.view, secretAt, recordAt_insert_of_ne _ (Ne.symm hn)]
    rfl

theorem view_delete {name : String} {t' : Tables} (hok : deleteSecret name w.tables = (.ok (), t')) :
    let w' : World := { w with
      incarnation := Function.update w.incarnation name (w.incarnation name + 1), tables := t' }
    (w'.view A name).secret = none ∧ ∀ n ≠ name, w'.view A n = w.view A n := by
  obtain ⟨_, rfl⟩ := deleteSecret_ok hok
  refine ⟨?_, fun n hn => ?_⟩
  · simp only [World.view, secretAt, recordAt_remove, if_true, Option.map_none]
  · simp only [World.view, secretAt, versionAt, recordAt_remove, recordAt_removeAll, if_neg (Ne.symm hn),
      if_neg (ownVersionKeys_notMem hn _ _), Function.update_of_ne hn]

/-- A sweep removes rows that have expired by then, and nothing else. -/
theorem view_sweep {now : Int64} {t' : Tables} (hok : expireGraceVersions A.codec now w.tables = (.ok (), t'))
    (name : String) :
    let w' : World := { w with tables := t' }
    (w'.view A name).secret = (w.view A name).secret ∧ (w'.view A name).payload = (w.view A name).payload ∧
      ∀ k, (w'.view A name).expiry k = (w.view A name).expiry k ∨
        (w'.view A name).expiry k = none ∧ ∃ e, e ≤ now ∧ (w.view A name).expiry k = some (some e) := by
  obtain ⟨expired, hexpired, rfl⟩ := expireGraceVersions_ok hok
  refine ⟨rfl, rfl, fun k => ?_⟩
  simp only [World.view, versionAt, recordAt_removeAll]
  split_ifs with hmem
  · obtain ⟨value, record, hrow, hdec, hexp⟩ := (mem_expiredKeys hexpired).mp hmem
    have hrecord : recordAt A.codec.version w.tables.versions (versionKey name k) = some record :=
      recordAt_of_get (Table.mem_rows.mp hrow) hdec
    cases hexpiry : record.expiresAt with
    | none =>
        rw [hexpiry] at hexp
        cases hexp
    | some e =>
        rw [hexpiry] at hexp
        refine Or.inr ⟨rfl, e, of_decide_eq_true hexp, ?_⟩
        rw [hrecord, Option.map_some, hexpiry]
  · exact Or.inl rfl

/-- A re-wrap exchanges a wrapped key, which is not seen. -/
theorem view_rewrap {name keyId : String} {number : Int32} {wrapped : Bytes} {target : Int64} {t' : Tables}
    (hok : rewrapVersion A.codec name number keyId wrapped target w.tables = (.ok (), t')) :
    ({ w with tables := t' } : World).view A = w.view A := by
  rcases rewrapVersion_ok hok with rfl | ⟨value, v, hget, hdec, _, rfl⟩
  · rfl
  · have hv : recordAt A.codec.version w.tables.versions (versionKey name number) = some v := recordAt_of_get hget hdec
    funext n
    simp only [World.view, versionAt, recordAt_insert]
    congr 1
    funext k
    split_ifs with hkey
    · rw [← hkey, hv]
      rfl
    · rfl

/-! ## Calm calls -/

/-- The operations that change nothing that can be seen. -/
inductive CalmOp : Op → Prop
  | quiet {op : Op} (h : QuietOp op) : CalmOp op
  | busy (node : Nat) (value : Bool) : CalmOp (.busy node value)
  | retry (name : String) (version : Int32) (now : Int64) (basis : Basis) :
      CalmOp (.submit (retryCommand name version now) basis none)
  | completed (state : KmsRewrapState) : CalmOp (.submit (.setKmsRewrapState state) .nothing none)
  | rewrap (name : String) (version : Int32) (keyId : String) (wrapped : Bytes) (target : Int64) (basis : Basis) :
      CalmOp (.submit (.rewrapVersion name version keyId wrapped target) basis none)

theorem view_calmOp {op : Op} (h : CalmOp op) : (w.perform A op).view A = w.view A := by
  cases h with
  | quiet hquiet => exact view_quietOp hquiet
  | busy node value => rfl
  | retry name version now basis =>
      refine commit_of (P := fun w' => w'.view A = w.view A) rfl fun t' hok => ?_
      obtain ⟨s, hs, hs', hpayload, hexpiry, hother⟩ := view_updateMeta hok
      funext n
      by_cases hn : n = name
      · subst hn
        exact NameView.ext (hs'.trans hs.symm) hpayload hexpiry
      · exact hother n hn
  | completed state => exact view_commit_of_area rfl nofun nofun
  | rewrap name version keyId wrapped target basis =>
      exact commit_of (P := fun w' => w'.view A = w.view A) rfl fun _ hok => view_rewrap hok

theorem view_exec_calm {α : Type} {p : Proc World Op α} (h : p.Only CalmOp) (w : World) :
    (p.exec (World.perform A) w).2.view A = w.view A :=
  Proc.exec_of_only (J := fun w' => w'.view A = w.view A) h (fun _ _ hop hw => (view_calmOp hop).trans hw) rfl

/-- What follows a part of a call is not seen where it is calm. -/
theorem view_exec_bind {α β : Type} {c : Call α} {f : α → Call β} (h : ∀ a, (f a).run.Only CalmOp) (w : World) :
    ((c >>= f).exec A w).2.view A = (c.exec A w).2.view A := by
  rw [Call.exec_bind]
  cases c.exec A w with
  | mk r w' =>
      cases r with
      | error e => rfl
      | ok a => exact view_exec_calm (h a) w'

end Views

section Calm
variable {A : AppState}

instance : AllowsPasses CalmOp where
  read := .quiet .read
  kms := .quiet .kms
  attempt a name version := .quiet (.attempt a name version)
  audit entry := .quiet (.audit entry)
  busy := .busy
  rewrap := .rewrap
  completed := .completed

theorem rotateFinish_calm (actor : String) (clientIp : Option String) (name : String)
    (d : Draws) (secret : SecretRecord)
    (sealing : Sealing) : (rotateFinish A actor clientIp name d secret sealing).run.Only CalmOp := by
  refine Proc.only_bind_ok (Proc.only_lift (rotateApply_only A _ _ _)) fun applied => ?_
  cases applied with
  | ok u => exact audit_bind_only A fun _ => trivial
  | error err =>
      refine Proc.only_bind_ok (trySubmit_only (.retry _ _ _ _)) fun _ => ?_
      exact audit_bind_only A fun _ => trivial

end Calm

end HyperionVault
