import HyperionVault.Service.Changes
import HyperionVault.Service.Subjects

/-!
# The rotation worker

`tick` of `rotation_worker.rs` lists the secrets that are due once and then rotates them one after the other. A
rotation reads the record again, but does not look at the time it is due: what a user has rotated in between is
rotated once more.

* `rotationTick`, `rotateEach` : a tick of the worker;
* `DueAt`, `StaysDue` : a secret that is due at the time of the scan, and a state in which no secret ceases to be;
* `KeepsDue` : a command that leaves a due secret due;
* `rotateEach_relies`, `dueRotations_ok` : the rotations of a tick, where others leave due secrets due, and its scan;
* `TickSystem`, `TickPhase` : a tick among calls of users, interleaved by operations, and where it is;
* `TickSystem.RotatesDue`, `worker_rotates_due` : the worker rotates due secrets only, if the users' commands after
  the scan leave them due;
* `rotatedTwice` : a user rotates a listed secret first.
-/

namespace HyperionVault
open Lib

/-! ## A tick -/

/-- What a tick draws: whether the node is the leader, its two clock readings, and the draws of its rotations. -/
structure TickDraws where
  leader : Bool
  expireAt : Int64
  scanAt : Int64
  rotations : Nat → Draws

section Tick
variable (A : AppState) (d : TickDraws)

/-- The listed secrets in turn; that a rotation has failed is only logged. -/
def rotateEach : List SecretRecord → Nat → Call Unit
  | [], _ => return ()
  | secret :: rest, i => do
      let _ ← ExceptT.lift (rotate A "rotation-worker" none secret.name (d.rotations i)).run
      rotateEach rest (i + 1)

/-- A tick from its scan on. -/
def rotateDue : Call Unit := do
  let due ← Call.read (RedbStore.dueRotations A.codec d.scanAt)
  rotateEach A d due 0

def rotationTick : Call Unit := do
  if d.leader then do
    Call.submit A (.expireGraceVersions d.expireAt) .nothing none
    rotateDue A d
  else return ()

end Tick

/-! ## Due secrets -/

section Due
variable (C : Codec) (time : Int64)

/-- The stored record of the secret is due at `time`. -/
def DueAt (t : Tables) (name : String) : Prop :=
  ∃ secret, secretAt C t name = some secret ∧ secret.nextRotationAt.any (· ≤ time) = true

/-- What was due is due. -/
def StaysDue (w w' : World) : Prop := ∀ name, DueAt C time w.tables name → DueAt C time w'.tables name

instance : IsPreorder World (StaysDue C time) where
  refl _ _ h := h
  trans _ _ _ h h' name hdue := h' name (h name hdue)

/-- The version that a command expects to be the current one. -/
def Command.expected : Command → Option Int32
  | .putVersion _ expectedCurrent .. => some expectedCurrent
  | .updateMeta _ expectedCurrent .. => some expectedCurrent
  | _ => none

def Command.nextRotation : Command → NextRotation
  | .putVersion _ _ _ _ _ _ _ nextRotationAt _ => nextRotationAt
  | .updateMeta _ _ _ _ _ nextRotationAt _ => nextRotationAt
  | _ => .keep

/-- If the command changes a record that is due, the new time of its rotation is not after `time`. -/
def KeepsDue (t : Tables) (command : Command) : Prop :=
  ∀ name secret, command.revises = some name → secretAt C t name = some secret →
    command.expected = some secret.currentVersion → secret.nextRotationAt.any (· ≤ time) = true →
    (command.nextRotation.resolve secret.nextRotationAt).any (· ≤ time) = true

end Due

section Effects
variable {C : Codec} {time : Int64} {nodeId : Nat} {t t' : Tables} {command : Command} {name : String}

/-- A command that changes a record: the name stays, the next rotation is the one of the command. -/
theorem revised (h : command.revises = some name) (hok : applyCommand C nodeId command t = (.ok (), t')) :
    ∃ secret secret', secretAt C t name = some secret ∧ secretAt C t' name = some secret' ∧
      command.expected = some secret.currentVersion ∧ secret'.name = secret.name ∧
      secret'.nextRotationAt = command.nextRotation.resolve secret.nextRotationAt := by
  cases command with
  | putVersion =>
      cases h
      obtain ⟨_, value, secret, versions, hget, hdec, hcurrent, _, rfl⟩ := putVersion_ok hok
      refine ⟨secret, _, recordAt_of_get hget hdec, recordAt_insert_self _ _, congrArg some hcurrent.symm, ?_, ?_⟩
      · rw [applyMeta_eq]
      · rw [applyMeta_eq]
        rfl
  | updateMeta =>
      cases h
      obtain ⟨value, secret, hget, hdec, hcurrent, rfl⟩ := updateMeta_ok hok
      refine ⟨secret, _, recordAt_of_get hget hdec, recordAt_insert_self _ _, congrArg some hcurrent.symm, ?_, ?_⟩
      · rw [applyMeta_eq]
      · rw [applyMeta_eq]
        rfl
  | _ => cases h

theorem revised_other (h : command.revises = some name) {other : String} (hne : other ≠ name)
    (hok : applyCommand C nodeId command t = (.ok (), t')) : secretAt C t' other = secretAt C t other := by
  unfold secretAt recordAt
  rw [(applyCommand_rows (subject_of_revises h) hne hok).1]

theorem keepsDue_of_revised (h : command.revises = some name) (hkeeps : KeepsDue C time t command)
    (hok : applyCommand C nodeId command t = (.ok (), t')) (other : String) (hdue : DueAt C time t other) :
    DueAt C time t' other := by
  by_cases hne : other = name
  · subst hne
    obtain ⟨secret, secret', hs, hs', hexpected, _, hnext⟩ := revised h hok
    obtain ⟨found, hfound, hdue⟩ := hdue
    obtain rfl : secret = found := Option.some.inj (hs.symm.trans hfound)
    exact ⟨secret', hs', hnext ▸ hkeeps other secret h hs hexpected hdue⟩
  · obtain ⟨secret, hs, hdue⟩ := hdue
    exact ⟨secret, (revised_other h hne hok).trans hs, hdue⟩

end Effects

/-! ## The operations of users and of the worker -/

/-- What calls do that change records, and no other tables of the secrets. -/
inductive UserOp : Op → Prop
  | quiet {op : Op} (h : QuietOp op) : UserOp op
  | revise {command : Command} {name : String} (h : command.revises = some name) (basis : Basis)
      (sealing : Option Sealing) : UserOp (.submit command basis sealing)

instance (name : String) : AllowsRevisions UserOp name where
  read := .quiet .read
  kms := .quiet .kms
  attempt a secret version := .quiet (.attempt a secret version)
  audit entry := .quiet (.audit entry)
  revise := .revise

/-- What a rotation of the secret does after its command. -/
inductive FinishOp (name : String) : Op → Prop
  | quiet {op : Op} (h : QuietOp op) : FinishOp name op
  | retry (version : Int32) (now : Int64) (basis : Basis) :
      FinishOp name (.submit (retryCommand name version now) basis none)

instance (name : String) : AllowsQuiet (FinishOp name) where
  read := .quiet .read
  kms := .quiet .kms
  attempt a secret version := .quiet (.attempt a secret version)
  audit entry := .quiet (.audit entry)

/-- The secret that a command gives a new version. -/
def Command.rotates : Command → Option String
  | .putVersion name .. => some name
  | _ => none

/-- Only secrets that are due get a new version. -/
def RotatesWhenDue (C : Codec) (time : Int64) (w : World) (op : Op) : Prop :=
  ∀ command basis sealing name, op = .submit command basis sealing → command.rotates = some name →
    DueAt C time w.tables name

/-- Every record is stored under its own name. -/
def Named (C : Codec) (w : World) : Prop := ∀ key s, secretAt C w.tables key = some s → s.name = key

section Operations
variable {A : AppState} {time : Int64} {w : World} {op : Op}

theorem secrets_quietOp (h : QuietOp op) : (w.perform A op).tables.secrets = w.tables.secrets := by
  have hsubmit (command : Command) (hkeeps : command.keepsSecrets = true) :
      (w.commit A command none).tables.secrets = w.tables.secrets := by
    refine commit_of (P := fun w' => w'.tables.secrets = w.tables.secrets) rfl fun t' hok => ?_
    have hframe : (applyCommand A.codec A.nodeId command w.tables).2.secrets = w.tables.secrets :=
      (applyCommand_frame hkeeps w.tables).1
    rwa [hok] at hframe
  cases h with
  | read => rfl
  | kms => rfl
  | attempt a name version =>
      obtain ⟨_, _, heq⟩ := perform_attempt_eq A w a name version
      rw [heq]
  | audit entry => exact hsubmit _ rfl
  | failure => exact hsubmit _ rfl

theorem secretAt_quietOp (h : QuietOp op) (name : String) :
    secretAt A.codec (w.perform A op).tables name = secretAt A.codec w.tables name := by
  unfold secretAt
  rw [secrets_quietOp h]

theorem dueAt_quietOp (h : QuietOp op) {name : String} (hdue : DueAt A.codec time w.tables name) :
    DueAt A.codec time (w.perform A op).tables name := by
  obtain ⟨secret, hs, hnext⟩ := hdue
  exact ⟨secret, (secretAt_quietOp h name).trans hs, hnext⟩

theorem rotatesWhenDue_quietOp (h : QuietOp op) : RotatesWhenDue A.codec time w op := by
  rintro command basis sealing name rfl hrotates
  cases h <;> cases hrotates

theorem staysDue_userOp (h : UserOp op)
    (hkeeps : ∀ command basis sealing, op = .submit command basis sealing → KeepsDue A.codec time w.tables command) :
    StaysDue A.codec time w (w.perform A op) := by
  intro name hdue
  cases h with
  | quiet h => exact dueAt_quietOp h hdue
  | revise h basis sealing =>
      refine commit_of (P := fun w' => DueAt A.codec time w'.tables name) hdue fun t' hok => ?_
      exact keepsDue_of_revised h (hkeeps _ _ _ rfl) hok name hdue

theorem named_userOp (h : UserOp op) (hw : Named A.codec w) : Named A.codec (w.perform A op) := by
  intro key s hs
  cases h with
  | quiet h => exact hw key s ((secretAt_quietOp h key).symm.trans hs)
  | revise h basis sealing =>
      revert hs
      refine commit_of (P := fun w' => secretAt A.codec w'.tables key = some s → s.name = key) (hw key s)
        fun t' hok hs => ?_
      rename_i command name
      by_cases hkey : key = name
      · subst hkey
        obtain ⟨secret, secret', hbefore, hafter, _, hname, _⟩ := revised h hok
        obtain rfl : secret' = s := Option.some.inj (hafter.symm.trans hs)
        exact hname.trans (hw _ secret hbefore)
      · exact hw key s ((revised_other h hkey hok).symm.trans hs)

/-- The sweep of a tick leaves the records alone. -/
theorem named_sweep (now : Int64) (hw : Named A.codec w) :
    Named A.codec (w.perform A (.submit (.expireGraceVersions now) .nothing none)) := by
  refine commit_of (P := Named A.codec) hw fun t' hok => ?_
  obtain ⟨_, _, rfl⟩ := expireGraceVersions_ok hok
  exact hw

end Operations

/-! ## The worker after its scan -/

section Worker
variable {A : AppState} {time : Int64} {w : World} {names : List String} {name : String}

/-- These secrets are due. -/
def AllDue (C : Codec) (time : Int64) (names : List String) (w : World) : Prop :=
  ∀ name ∈ names, DueAt C time w.tables name

theorem allDue_stays {C : Codec} (w w' : World) (h : StaysDue C time w w') (hw : AllDue C time names w) :
    AllDue C time names w' := fun name hname => h name (hw name hname)

/-- A command on one secret leaves the others due. -/
theorem allDue_commit {command : Command} (h : command.revises = some name) (hne : name ∉ names)
    (hw : AllDue A.codec time names w) (sealing : Option Sealing) :
    AllDue A.codec time names (w.commit A command sealing) := by
  refine commit_of (P := AllDue A.codec time names) hw fun t' hok other hother => ?_
  obtain ⟨secret, hs, hnext⟩ := hw other hother
  exact ⟨secret, (revised_other h (fun heq => hne (heq ▸ hother)) hok).trans hs, hnext⟩

/-- What only reads and asks leaves the secrets due. -/
theorem quiet_relies {α : Type} {c : Call α} (h : c.run.Only QuietOp) (hw : AllDue A.codec time names w) :
    c.run.Relies (World.perform A) (StaysDue A.codec time) (RotatesWhenDue A.codec time) w
      fun w' _ => AllDue A.codec time names w' :=
  Proc.relies_of_only h allDue_stays (fun _ _ hop hdue =>
    ⟨rotatesWhenDue_quietOp hop, fun name hname => dueAt_quietOp hop (hdue name hname)⟩) hw

/-- The command of a rotation finds its secret due; the secrets that are still to be rotated stay so. -/
theorem submit_relies {command : Command} {basis : Basis} {sealing : Option Sealing} (h : command.revises = some name)
    (hne : name ∉ names) (hw : AllDue A.codec time (name :: names) w) :
    (Call.submit A command basis sealing).run.Relies (World.perform A) (StaysDue A.codec time)
      (RotatesWhenDue A.codec time) w fun w' _ => AllDue A.codec time names w' := by
  have hperform : (Call.trySubmit A command basis sealing).Relies (World.perform A) (StaysDue A.codec time)
      (RotatesWhenDue A.codec time) w fun w' _ => AllDue A.codec time names w' := by
    intro w' hw'
    have hdue := allDue_stays w w' hw' hw
    refine ⟨?_, fun w'' hw'' => allDue_stays _ w'' hw'' ?_⟩
    · rintro command' _ _ name' heq hrotates
      cases heq
      obtain rfl : name' = name := by
        cases command with
        | putVersion => exact Option.some.inj (hrotates.symm.trans h)
        | _ => cases hrotates
      exact hdue name' List.mem_cons_self
    · exact allDue_commit h hne (fun other hother => hdue other (List.mem_cons_of_mem _ hother)) sealing
  refine Proc.relies_bind_ok (Proc.relies_lift hperform allDue_stays) (fun w' r hr => ?_) (fun _ h => h) allDue_stays
  exact quiet_relies (ofExcept_only _ _) hr

theorem rotateCommit_relies (d : Draws) (hne : name ∉ names) (hw : AllDue A.codec time (name :: names) w) :
    (rotateCommit A name d).run.Relies (World.perform A) (StaysDue A.codec time) (RotatesWhenDue A.codec time) w
      fun w' _ => AllDue A.codec time names w' := by
  have htail (w : World) (h : AllDue A.codec time (name :: names) w) : AllDue A.codec time names w :=
    fun other hother => h other (List.mem_cons_of_mem _ hother)
  refine Proc.relies_bind_ok (quiet_relies (readSecret_only A) hw) (fun w₁ secret h₁ => ?_) htail allDue_stays
  split_ifs
  · exact fun w' hw' => allDue_stays w₁ w' hw' (htail w₁ h₁)
  · refine Proc.relies_bind_ok (quiet_relies (ofOption_only _ _) h₁) (fun w₂ number h₂ => ?_) htail allDue_stays
    refine Proc.relies_bind_ok (quiet_relies (rotatePayload_only A secret d) h₂) (fun w₃ payload h₃ => ?_) htail
      allDue_stays
    refine Proc.relies_bind_ok (quiet_relies (sealVersion_only A number payload d) h₃) (fun w₄ sealing h₄ => ?_) htail
      allDue_stays
    refine Proc.relies_bind_ok (submit_relies rfl hne h₄) (fun w₅ _ h₅ => ?_) (fun _ h => h) allDue_stays
    exact fun w' hw' => allDue_stays w₅ w' hw' h₅

theorem rotate_relies (actor : String) (clientIp : Option String) (d : Draws) (hne : name ∉ names)
    (hw : AllDue A.codec time (name :: names) w) :
    (rotate A actor clientIp name d).run.Relies (World.perform A) (StaysDue A.codec time)
      (RotatesWhenDue A.codec time) w fun w' _ => AllDue A.codec time names w' := by
  refine Proc.relies_bind_ok (rotateCommit_relies d hne hw) (fun w₁ rotated h₁ => ?_) (fun _ h => h) allDue_stays
  have honly : (rotateFinish A actor clientIp name d rotated.1 rotated.2).run.Only (FinishOp name) :=
    rotateFinish_only A actor clientIp d rotated fun version basis => .retry version d.now basis
  refine Proc.relies_of_only honly allDue_stays (fun w₂ op hop h₂ => ?_) h₁
  cases hop with
  | quiet hop => exact ⟨rotatesWhenDue_quietOp hop, fun other hother => dueAt_quietOp hop (h₂ other hother)⟩
  | retry version now basis =>
      refine ⟨?_, allDue_commit rfl hne h₂ none⟩
      rintro command _ _ _ heq hrotates
      cases heq
      cases hrotates

theorem rotateEach_relies (d : TickDraws) {due : List SecretRecord} (hnodup : (due.map SecretRecord.name).Nodup)
    (i : Nat) (hw : AllDue A.codec time (due.map SecretRecord.name) w) :
    (rotateEach A d due i).run.Relies (World.perform A) (StaysDue A.codec time) (RotatesWhenDue A.codec time) w
      fun _ _ => True := by
  induction due generalizing i w with
  | nil => exact fun _ _ => trivial
  | cons secret rest ih =>
      obtain ⟨hne, hrest⟩ := List.nodup_cons.mp hnodup
      have hrotate := rotate_relies "rotation-worker" none (d.rotations i) hne hw
      exact Proc.relies_bind_ok (Proc.relies_lift hrotate allDue_stays) (fun w' _ hw' => ih hrest (i + 1) hw')
        (fun _ _ => trivial) fun _ _ _ _ => trivial

end Worker

/-! ## The scan -/

section Scan
variable {C : Codec} {time : Int64}

/-- The scan lists rows that are due, in the order of their keys. -/
theorem dueRows_ok {rows : List (String × Bytes)} {due : List SecretRecord}
    (hnamed : ∀ row ∈ rows, ∀ s, decodeRow C.secret row.2 = .ok s → s.name = row.1)
    (h : RedbStore.dueRows C time rows = .ok due) :
    (due.map SecretRecord.name).Sublist (rows.map Prod.fst) ∧
      ∀ s ∈ due, s.nextRotationAt.any (· ≤ time) = true ∧ ∃ row ∈ rows, decodeRow C.secret row.2 = .ok s := by
  induction rows generalizing due with
  | nil =>
      cases h
      exact ⟨.slnil, List.forall_mem_nil _⟩
  | cons row rows ih =>
      unfold RedbStore.dueRows at h
      split at h
      · cases h
      · rename_i record hdec
        split at h
        · cases h
        · rename_i out hout
          cases h
          obtain ⟨hsub, hdue⟩ := ih (fun r hr => hnamed r (List.mem_cons_of_mem _ hr)) hout
          have hrest : ∀ s ∈ out, s.nextRotationAt.any (· ≤ time) = true ∧
              ∃ r ∈ row :: rows, decodeRow C.secret r.2 = .ok s := by
            intro s hs
            obtain ⟨hnext, r, hr, hr'⟩ := hdue s hs
            exact ⟨hnext, r, List.mem_cons_of_mem _ hr, hr'⟩
          split_ifs with hnext
          · refine ⟨?_, List.forall_mem_cons.mpr ⟨⟨hnext, row, List.mem_cons_self, hdec⟩, hrest⟩⟩
            rw [List.map_cons, hnamed row List.mem_cons_self record hdec]
            exact hsub.cons_cons _
          · exact ⟨hsub.cons _, hrest⟩

/-- The scan lists each secret once, and each is due. -/
theorem dueRotations_ok {w : World} {due : List SecretRecord} (hw : Named C w)
    (h : RedbStore.dueRotations C time w.tables = .ok due) :
    (due.map SecretRecord.name).Nodup ∧ AllDue C time (due.map SecretRecord.name) w := by
  have hrow : ∀ row ∈ w.tables.secrets.rows, ∀ s, decodeRow C.secret row.2 = .ok s →
      secretAt C w.tables row.1 = some s := fun row hrow s hdec =>
    recordAt_of_get (Table.mem_rows.mp hrow) (decodeRow_ok.mp hdec)
  have hnamed : ∀ row ∈ w.tables.secrets.rows, ∀ s, decodeRow C.secret row.2 = .ok s → s.name = row.1 :=
    fun row hmem s hdec => hw row.1 s (hrow row hmem s hdec)
  obtain ⟨hsub, hdue⟩ := dueRows_ok hnamed h
  constructor
  · have hkeys : (w.tables.secrets.rows.map Prod.fst).Nodup :=
      List.pairwise_map.mpr (w.tables.secrets.sorted.imp fun hlt => ne_of_lt hlt)
    exact hkeys.sublist hsub
  · intro name hname
    obtain ⟨s, hs, rfl⟩ := List.mem_map.mp hname
    obtain ⟨hnext, row, hmem, hdec⟩ := hdue s hs
    exact ⟨s, hnamed row hmem s hdec ▸ hrow row hmem s hdec, hnext⟩

end Scan

/-! ## A tick among the calls of users -/

inductive TickCall where
  | tick (draws : TickDraws)
  | user (call : ServiceCall)

def TickCall.body (A : AppState) : TickCall → Proc World Op (ApiResult Reply)
  | .tick d => (rotationTick A d).reply fun _ => .done
  | .user call => call.body A

/-- A user updates or rotates a secret. -/
def TickCall.isChange : TickCall → Bool
  | .user (.update ..) => true
  | .user (.rotate ..) => true
  | _ => false

/-- The tick is the first call; `scheduled` says how often it has been its turn. -/
structure TickSystem where
  sys : System World Op (ApiResult Reply) TickCall
  scheduled : Nat

namespace TickSystem
variable (A : AppState)

def start (d : TickDraws) (w : World) : TickSystem := ⟨⟨w, [(.tick d, TickCall.body A (.tick d))]⟩, 0⟩

def step (s : TickSystem) (e : SystemEvent TickCall) : TickSystem where
  sys := s.sys.step (World.perform A) (TickCall.body A) e
  scheduled := match e with
    | .step 0 => s.scheduled + 1
    | _ => s.scheduled

/-- Users update and rotate. Once the tick has scanned, with its second operation, their commands leave due secrets
due. -/
def Allows (time : Int64) (s : TickSystem) : SystemEvent TickCall → Prop
  | .start call => call.isChange = true
  | .step 0 => True
  | .step (place + 1) => 2 ≤ s.scheduled → ∀ call command basis sealing next,
      s.sys.calls[place + 1]? = some (call, .act (.submit command basis sealing) next) →
        KeepsDue A.codec time s.sys.shared.tables command

/-- If the next operation of the tick commits a rotation, the secret is due in the state where it does. -/
def RotatesDue (time : Int64) (s : TickSystem) : Prop :=
  ∀ call command basis sealing next name,
    s.sys.calls[0]? = some (call, .act (.submit command basis sealing) next) → command.rotates = some name →
      (RedbStore.apply A.codec A.nodeId command s.sys.shared.tables).1 = .ok () →
        DueAt A.codec time s.sys.shared.tables name

end TickSystem

section Phases
variable {A : AppState} {d : TickDraws} {w : World} {n : Nat} {op : Op} {p : Proc World Op (ApiResult Reply)}

/-- Where the tick is after `n` turns: before its sweep, before its scan, or at its rotations. -/
def TickPhase (A : AppState) (d : TickDraws) : Nat → Proc World Op (ApiResult Reply) → World → Prop
  | 0, p, w => p = TickCall.body A (.tick d) ∧ Named A.codec w
  | 1, p, w => (p = ((rotateDue A d).reply fun _ => .done) ∨ ∃ a, p = .ret a) ∧ Named A.codec w
  | _ + 2, p, w => p.Relies (World.perform A) (StaysDue A.codec d.scanAt) (RotatesWhenDue A.codec d.scanAt) w
      fun _ _ => True

theorem tickPhase_ret {a : ApiResult Reply} (h : TickPhase A d n (.ret a) w) : TickPhase A d (n + 1) (.ret a) w := by
  match n, h with
  | 0, h => exact ⟨Or.inr ⟨a, rfl⟩, h.2⟩
  | 1, _ => exact fun _ _ => trivial
  | _ + 2, _ => exact fun _ _ => trivial

/-- The first operation of a tick is its sweep. -/
theorem tick_act {next : World → Proc World Op (ApiResult Reply)} (h : .act op next = TickCall.body A (.tick d)) :
    op = .submit (.expireGraceVersions d.expireAt) .nothing none ∧ ∀ w, next w =
      ((do Call.ofExcept .ofStore (RedbStore.apply A.codec A.nodeId (.expireGraceVersions d.expireAt) w.tables).1
           rotateDue A d : Call Unit).reply fun _ => .done) := by
  unfold TickCall.body rotationTick at h
  dsimp only at h
  split_ifs at h
  · cases h
    exact ⟨rfl, fun _ => rfl⟩
  · cases h

/-- A failed sweep ends the tick. -/
theorem swept_cases (r : StoreResult Unit) :
    ((do Call.ofExcept .ofStore r; rotateDue A d : Call Unit).reply fun _ => .done) =
        ((rotateDue A d).reply fun _ => .done) ∨
      ∃ a, ((do Call.ofExcept .ofStore r; rotateDue A d : Call Unit).reply fun _ => .done) = .ret a := by
  cases r with
  | error e => exact Or.inr ⟨_, rfl⟩
  | ok u => exact Or.inl rfl

theorem scan_relies (hw : Named A.codec w) :
    ((do let due ← Call.ofExcept .ofStore (RedbStore.dueRotations A.codec d.scanAt w.tables)
         rotateEach A d due 0 : Call Unit).reply fun _ => .done).Relies (World.perform A)
      (StaysDue A.codec d.scanAt) (RotatesWhenDue A.codec d.scanAt) w fun _ _ => True := by
  cases hscan : RedbStore.dueRotations A.codec d.scanAt w.tables with
  | error e => exact fun _ _ => trivial
  | ok due =>
      obtain ⟨hnodup, hdue⟩ := dueRotations_ok hw hscan
      exact Proc.relies_bind_ok (rotateEach_relies d hnodup 0 hdue) (fun _ _ _ _ _ => trivial) (fun _ h => h)
        fun _ _ _ h => h

/-- The turn of the tick. -/
theorem tickPhase_act {next : World → Proc World Op (ApiResult Reply)} (h : TickPhase A d n (.act op next) w) :
    TickPhase A d (n + 1) (next w) (w.perform A op) := by
  match n, h with
  | 0, ⟨hp, hw⟩ =>
      obtain ⟨rfl, hnext⟩ := tick_act hp
      rw [hnext]
      exact ⟨swept_cases _, named_sweep d.expireAt hw⟩
  | 1, ⟨hp, hw⟩ =>
      rcases hp with hp | ⟨a, hp⟩
      · cases hp
        exact scan_relies hw
      · cases hp
  | _ + 2, h => exact (h w (refl_of _ w)).2

/-- The turn of a user. -/
theorem tickPhase_user (h : TickPhase A d n p w) (hop : UserOp op)
    (hkeeps : 2 ≤ n → ∀ command basis sealing, op = .submit command basis sealing →
      KeepsDue A.codec d.scanAt w.tables command) : TickPhase A d n p (w.perform A op) := by
  match n, h with
  | 0, h => exact ⟨h.1, named_userOp hop h.2⟩
  | 1, h => exact ⟨h.1, named_userOp hop h.2⟩
  | n + 2, h => exact Proc.relies_mono h (staysDue_userOp hop (hkeeps (Nat.le_add_left 2 n)))

end Phases

section Runs
variable {A : AppState} {d : TickDraws}

theorem change_only {call : TickCall} (h : call.isChange = true) : (call.body A).Only UserOp := by
  cases call with
  | tick d => cases h
  | user call =>
      cases call with
      | update actor name req draws => exact Proc.only_bind_ok (updateSecret_only A actor req draws) fun _ => trivial
      | rotate actor clientIp name draws => exact Proc.only_bind_ok (rotate_only A actor clientIp draws) fun _ => trivial
      | _ => cases h

/-- The tick is in its phase, and the other calls are those of users. -/
structure TickInv (A : AppState) (d : TickDraws) (s : TickSystem) : Prop where
  worker : ∃ call p, s.sys.calls[0]? = some (call, p) ∧ TickPhase A d s.scheduled p s.sys.shared
  users : ∀ place c, s.sys.calls[place + 1]? = some c → c.2.Only UserOp

theorem tickInv_start {w : World} (hw : Named A.codec w) : TickInv A d (.start A d w) where
  worker := ⟨.tick d, TickCall.body A (.tick d), rfl, rfl, hw⟩
  users := by
    intro place c hc
    simp [TickSystem.start] at hc

theorem tickInv_call {s : TickSystem} (h : TickInv A d s) {call : TickCall} (hcall : call.isChange = true) :
    TickInv A d (s.step A (.start call)) := by
  obtain ⟨worker, p, hworker, hphase⟩ := h.worker
  refine ⟨⟨worker, p, List.getElem?_append_left (List.getElem?_eq_some_iff.mp hworker).1 ▸ hworker, hphase⟩, ?_⟩
  intro place c hc
  change (s.sys.calls ++ [(call, call.body A)])[place + 1]? = some c at hc
  rw [List.getElem?_append] at hc
  split_ifs at hc
  · exact h.users place c hc
  · rw [List.mem_singleton.mp (List.mem_of_getElem? hc)]
    exact change_only hcall

theorem tickInv_worker {s : TickSystem} (h : TickInv A d s) : TickInv A d (s.step A (.step 0)) := by
  obtain ⟨worker, p, hworker, hphase⟩ := h.worker
  have hlt := (List.getElem?_eq_some_iff.mp hworker).1
  unfold TickSystem.step System.step
  dsimp only
  rw [hworker]
  cases p with
  | ret a => exact ⟨⟨worker, _, hworker, tickPhase_ret hphase⟩, h.users⟩
  | act op next =>
      refine ⟨⟨worker, _, List.getElem?_set_self hlt, tickPhase_act hphase⟩, fun place c hc => ?_⟩
      exact h.users place c ((List.getElem?_set_ne (Nat.succ_ne_zero place).symm).symm.trans hc)

theorem tickInv_user {s : TickSystem} (h : TickInv A d s) {place : Nat}
    (hallows : s.Allows A d.scanAt (.step (place + 1))) : TickInv A d (s.step A (.step (place + 1))) := by
  obtain ⟨worker, p, hworker, hphase⟩ := h.worker
  unfold TickSystem.step System.step
  dsimp only
  split
  · rename_i call op next hcall
    have hlt := (List.getElem?_eq_some_iff.mp hcall).1
    obtain ⟨hop, hnext⟩ := h.users place _ hcall
    refine ⟨⟨worker, p, (List.getElem?_set_ne (Nat.succ_ne_zero place)).trans hworker, ?_⟩, fun place' c hc => ?_⟩
    · refine tickPhase_user hphase hop fun hscanned command basis sealing heq => ?_
      subst heq
      exact hallows hscanned call command basis sealing next hcall
    · by_cases hplace : place' = place
      · subst hplace
        cases (List.getElem?_set_self hlt).symm.trans hc
        exact hnext _
      · refine h.users place' c ((List.getElem?_set_ne ?_).symm.trans hc)
        exact fun heq => hplace (Nat.succ_injective heq).symm
  · exact ⟨⟨worker, p, hworker, hphase⟩, h.users⟩

theorem tickInv_step (s : TickSystem) (e : SystemEvent TickCall) (h : TickInv A d s)
    (hallows : s.Allows A d.scanAt e) : TickInv A d (s.step A e) := by
  match e, hallows with
  | .start call, hcall => exact tickInv_call h hcall
  | .step 0, _ => exact tickInv_worker h
  | .step (place + 1), hallows => exact tickInv_user h hallows

theorem rotatesDue_of_tickInv {s : TickSystem} (h : TickInv A d s) : s.RotatesDue A d.scanAt := by
  obtain ⟨worker, p, hworker, hphase⟩ := h.worker
  intro call command basis sealing next name hcall hrotates _
  cases hworker.symm.trans hcall
  match hn : s.scheduled, hphase with
  | 0, ⟨hp, _⟩ =>
      cases (tick_act hp).1
      cases hrotates
  | 1, ⟨hp, _⟩ =>
      -- the scan is a read
      rcases hp with hp | ⟨a, hp⟩ <;> cases hp
  | n + 2, hphase => exact (hphase _ (refl_of _ _)).1 command basis sealing name rfl hrotates

/-- Whatever users update and rotate while the worker runs a tick: if their commands after the scan leave due secrets
due, the worker rotates due secrets only. -/
theorem worker_rotates_due (A : AppState) (d : TickDraws) (w : World) (hw : Named A.codec w)
    (es : List (SystemEvent TickCall))
    (hes : AllSteps (TickSystem.step A) (TickSystem.Allows A d.scanAt) (.start A d w) es)
    (before after : List (SystemEvent TickCall)) (hsplit : es = before ++ after) :
    (run (TickSystem.step A) (.start A d w) before).RotatesDue A d.scanAt := by
  subst hsplit
  exact rotatesDue_of_tickInv
    (run_inv_of_allSteps tickInv_step (tickInv_start hw) (allSteps_append.mp hes).1)

end Runs

/-! ## A secret that is rotated twice -/

section Twice
variable (C : Codec)

/-- A tick that scans when the automatic secret is due. -/
def dueTick : TickDraws where
  leader := true
  expireAt := 100
  scanAt := 100
  rotations _ := drawsOf 102 4 "x"

def userRotate : TickCall := .user (.rotate "root" none "a" (drawsOf 101 3 "w"))

/-- A user calls after the scan, and the worker comes to its rotation first. -/
def workerFirst : List (SystemEvent TickCall) :=
  List.replicate 2 (.step 0) ++ [.start userRotate] ++ List.replicate 3 (.step 0)

theorem workerFirst_rotates_due :
    (run (TickSystem.step (nodeWith jsonCodec)) (.start (nodeWith jsonCodec) dueTick (automaticWorld jsonCodec))
      workerFirst).RotatesDue (nodeWith jsonCodec) 100 :=
  worker_rotates_due (nodeWith jsonCodec) dueTick (automaticWorld jsonCodec) (automaticWorld_inv jsonCodec).named
    workerFirst ⟨trivial, trivial, rfl, trivial, trivial, trivial, trivial⟩ workerFirst [] (List.append_nil _).symm

/-- The record after the rotation of the user. -/
def userRotated : SecretRecord :=
  { automaticA with currentVersion := 2, nextRotationAt := some (nextRotationUnix 101 100), updatedAt := 101 }

def userSealing : Sealing := sealingOf (nodeWith C) "a" 2 (.value "w") 101 3

def workerSealing : Sealing := sealingOf (nodeWith C) "a" 3 (.value "x") 102 4

/-- The worker has scanned when a user rotates the secret, and goes on to its own rotation. -/
def rotatedTwice : List (SystemEvent TickCall) :=
  List.replicate 2 (.step 0) ++ (.start userRotate :: List.replicate 4 (.step 1)) ++ List.replicate 3 (.step 0)

/-- The store after the rotation of the user. -/
structure UserRotated (w : World) : Prop where
  secret : secretAt C w.tables "a" = some userRotated
  version : versionAt C w.tables (versionKey "a" 2) = some (userSealing C).record
  kmsRewrap : w.tables.kmsRewrap = .empty

variable {K : World → Op → Prop} (hK : ∀ w op, K w op)
include hK

theorem userRotate_runs : ∃ w, UserRotated C w ∧
    (rotateCommit (nodeWith C) "a" (drawsOf 101 3 "w")).Runs (nodeWith C) K 4 (automaticWorld C)
      (automaticA, userSealing C) w := by
  have hone : (1 : Int32) ≤ 2 := by decide
  have hne : versionKey "a" 2 ≠ versionKey "a" 1 :=
    versionKey_ne_of_version_ne isValidSecretName_a hone (by decide) (show (2 : Int32) ≠ 1 by decide)
  have happly := rotateCommand_eq (A := nodeWith C) automaticA 101 (userSealing C).record isValidSecretName_a hone
    (secretAt_automaticWorld C) rfl hne (versionAt_automaticWorld C) rfl
  refine ⟨_, ⟨?_, ?_, ?_⟩, rotateCommit_runs (n := 0) (hK _ _) (secretAt_automaticWorld C) rfl rfl (pure_runs _)
    (seal_runs (hK _ _) (hK _ _) rfl) (hK _ _) happly⟩
  · exact recordAt_insert_self _ _
  · exact (recordAt_insert_of_ne _ hne.symm).trans (recordAt_insert_self _ _)
  · rfl

theorem tick_scans : Proc.Reaches (World.perform (nodeWith C)) K 2 (TickCall.body (nodeWith C) (.tick dueTick))
    (automaticWorld C) ((rotateEach (nodeWith C) dueTick [automaticA] 0).reply fun _ => .done) (automaticWorld C) := by
  have hsweep : applyCommand C 1 (.expireGraceVersions 100) (automaticWorld C).tables =
      (.ok (), (automaticWorld C).tables) := by
    have hkeys : expiredKeys C 100 (automaticWorld C).tables.versions.rows = .ok [] := by
      have hrows : (automaticWorld C).tables.versions.rows =
          [(versionKey "a" 1, C.version.encode (sealingA C 1).record)] := rfl
      have hnone : (sealingA C 1).record.expiresAt = none := rfl
      simp [hrows, expiredKeys, hnone]
    simp only [applyCommand, expireGraceVersions, hkeys]
    rfl
  have hscan : RedbStore.dueRotations C 100 (automaticWorld C).tables = .ok [automaticA] := by
    have hrows : (automaticWorld C).tables.secrets.rows = [("a", C.secret.encode automaticA)] := rfl
    have hnext : automaticA.nextRotationAt = some 100 := by decide
    simp [RedbStore.dueRotations, hrows, RedbStore.dueRows, hnext]
  refine Proc.reaches_bind (n := 2) ?_ _
  refine Proc.reaches_bind_ret (n := 1) (m := 1) (submit_runs (hK _ _) hsweep) ?_
  exact Proc.reaches_bind_ret (n := 1) (m := 0) (read_runs (hK _ _) hscan) ⟨rfl, rfl⟩

theorem worker_rotates_again {w : World} (h : UserRotated C w) :
    Proc.NextOp (World.perform (nodeWith C)) K 3
      ((rotateEach (nodeWith C) dueTick [automaticA] 0).reply fun _ => .done) w
      (.submit (rotateCommand "a" userRotated 102 (workerSealing C).record) (.record userRotated)
        (some (workerSealing C))) w := by
  have hrotate := rotateCommit_next (A := nodeWith C) (K := K) (d := drawsOf 102 4 "x") (n := 0) (hK w _) h.secret rfl
    rfl (pure_runs _) (seal_runs (hK _ _) (hK _ _) h.kmsRewrap)
  exact next_bind_left (next_bind_left (Proc.nextOp_bind (next_bind_left hrotate) _))

omit hK in
/-- The command of the worker finds the version that it has read. -/
theorem workerCommand_ok {w : World} (h : UserRotated C w) :
    (RedbStore.apply C 1 (rotateCommand "a" userRotated 102 (workerSealing C).record) w.tables).1 = .ok () := by
  have hone : (1 : Int32) ≤ 3 := by decide
  have hne : versionKey "a" 3 ≠ versionKey "a" 2 :=
    versionKey_ne_of_version_ne isValidSecretName_a hone (by decide) (show (3 : Int32) ≠ 2 by decide)
  have happly := rotateCommand_eq (A := nodeWith C) userRotated 102 (workerSealing C).record isValidSecretName_a hone
    h.secret rfl hne h.version rfl
  unfold RedbStore.apply
  rw [show applyCommand C 1 _ w.tables = _ from happly]

omit hK in
theorem not_dueAt_userRotated {w : World} (h : UserRotated C w) : ¬ DueAt C 100 w.tables "a" := by
  rintro ⟨secret, hs, hnext⟩
  cases h.secret.symm.trans hs
  exact absurd hnext (by decide)

end Twice

theorem TickSystem.run_sys (A : AppState) (s : TickSystem) (es : List (SystemEvent TickCall)) :
    (run (TickSystem.step A) s es).sys = run (System.step (World.perform A) (TickCall.body A)) s.sys es := by
  induction es generalizing s with
  | nil => rfl
  | cons e es ih => exact ih (s.step A e)

theorem rotatedTwice_run (C : Codec) :
    ¬ (run (TickSystem.step (nodeWith C)) (.start (nodeWith C) dueTick (automaticWorld C)) rotatedTwice).RotatesDue
      (nodeWith C) 100 := by
  have hK : ∀ (w : World) (op : Op), (fun _ _ => True : World → Op → Prop) w op := fun _ _ => trivial
  obtain ⟨w, hw, huser⟩ := userRotate_runs C hK
  obtain ⟨next, hagain⟩ := worker_rotates_again C hK hw
  have hfirst := System.run_reaches (World.perform (nodeWith C)) (TickCall.body (nodeWith C)) (P := fun _ => True)
    (show [(TickCall.tick dueTick, _)][0]? = _ from rfl) (tick_scans C hK)
  have hsecond := fun calls => System.run_call (World.perform (nodeWith C)) (TickCall.body (nodeWith C))
    (P := fun _ => True) calls userRotate trivial (Proc.reaches_bind (Proc.reaches_bind huser _) _)
  have hrun := (hfirst.append (hsecond _)).append
    (System.run_reaches (World.perform (nodeWith C)) (TickCall.body (nodeWith C))
      (show (List.set _ 0 _ ++ _)[0]? = _ from rfl) hagain)
  have hsys := (TickSystem.run_sys (nodeWith C) (.start (nodeWith C) dueTick (automaticWorld C)) rotatedTwice).trans
    hrun.1
  intro h
  unfold TickSystem.RotatesDue at h
  rw [hsys] at h
  exact not_dueAt_userRotated C hw (h _ _ _ _ _ "a" rfl rfl (workerCommand_ok C hw))

/-- A user rotates a due secret after the scan: the worker then rotates it once more, long before it is due again. -/
theorem due_secret_rotated_twice : Named jsonCodec (automaticWorld jsonCodec) ∧
    (∀ call, .start call ∈ rotatedTwice → call.isChange = true) ∧
    ¬ (run (TickSystem.step (nodeWith jsonCodec)) (.start (nodeWith jsonCodec) dueTick (automaticWorld jsonCodec))
      rotatedTwice).RotatesDue (nodeWith jsonCodec) dueTick.scanAt := by
  refine ⟨(automaticWorld_inv jsonCodec).named, ?_, rotatedTwice_run jsonCodec⟩
  intro call hcall
  simp only [rotatedTwice, List.replicate, List.mem_append, List.mem_cons, List.not_mem_nil, reduceCtorEq, or_false,
    false_or, SystemEvent.start.injEq] at hcall
  subst hcall
  rfl

end HyperionVault
