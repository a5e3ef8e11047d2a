import HyperionVault.Service.Rewrap
import Mathlib.Data.List.Induction

/-!
# The ledger: what clients have written

The purpose of the service, without tables and keys. A ledger knows of every secret its present payload and
the payloads before it, each with the moment it was superseded and the grace period found then. The calls that
were committed determine it.

* `Past`, `Life`, `Ledger` : what has been written since a secret was created;
* `createdPayload`, `Payload.updated`, `Payload.rotated` : what a request supplies, and what stays;
* `Ledger.after`, `ledgerOf` : the ledger after one call, and after all of them;
* `ledgerOf_isSome_iff` : a name is in the ledger if it was created and not deleted since.
-/

namespace HyperionVault
open Lib

/-- A version that has been superseded. -/
structure Past where
  payload : Payload
  supersededAt : Int64
  grace : Int64

/-- A secret since it was created. The version at place `i` of `past` has the number `i + 1`. -/
structure Life where
  kind : SecretKind
  target : Option RotationTarget
  grace : Int64
  payload : Payload
  past : List Past

abbrev Ledger := String → Option Life

/-! ## Payloads -/

/-- What a client does not supply is generated. -/
def createdPayload (req : CreateSecretRequest) (token : String) : Payload :=
  match req.username with
  | some username => .userpass ⟨username, req.password.getD token⟩
  | none => .value (req.value.getD token)

/-- Each field is the one supplied last. -/
def Payload.updated (req : UpdateSecretRequest) : Payload → Payload
  | .value text => .value (req.value.getD text)
  | .userpass login => .userpass ⟨req.username.getD login.username, req.password.getD login.password⟩

/-- A rotation generates a value or a password; it never changes a user name. -/
def Payload.rotated (token : String) : Payload → Payload
  | .value _ => .value token
  | .userpass login => .userpass ⟨login.username, token⟩

@[simp] theorem Payload.format_updated (payload : Payload) (req : UpdateSecretRequest) :
    (payload.updated req).format = payload.format := by
  cases payload <;> rfl

@[simp] theorem Payload.format_rotated (payload : Payload) (token : String) :
    (payload.rotated token).format = payload.format := by
  cases payload <;> rfl

/-! ## Lives -/

/-- The number of the current version. -/
def Life.version (life : Life) : Nat := life.past.length + 1

def Life.created (req : CreateSecretRequest) (token : String) : Life where
  kind := req.kind
  target := req.target
  grace := req.gracePeriodSecs.getD 0
  payload := createdPayload req token
  past := []

def Life.supersede (life : Life) (payload : Payload) (now : Int64) : Life :=
  { life with payload := payload, past := life.past ++ [⟨life.payload, now, life.grace⟩] }

/-- Whether a request supplies a value or a part of a login. -/
def UpdateSecretRequest.changesValue (req : UpdateSecretRequest) : Bool :=
  req.value.isSome || req.username.isSome || req.password.isSome

/-- The version before is superseded under the grace period that the request finds. -/
def Life.update (life : Life) (req : UpdateSecretRequest) (now : Int64) : Life :=
  let next := if req.changesValue then life.supersede (life.payload.updated req) now else life
  { next with grace := req.gracePeriodSecs.getD life.grace }

def Life.rotate (life : Life) (token : String) (now : Int64) : Life :=
  life.supersede (life.payload.rotated token) now

/-! ## The ledger -/

def Ledger.after (ledger : Ledger) : ServiceCall → Ledger
  | .create _ req d => Function.update ledger req.name (some (.created req d.token))
  | .update _ name req d => Function.update ledger name ((ledger name).map fun life => life.update req d.now)
  | .rotate _ _ name d => Function.update ledger name ((ledger name).map fun life => life.rotate d.token d.now)
  | .delete _ name _ => Function.update ledger name none
  | .expireGrace _ => ledger
  | .rewrap .. => ledger

/-- The ledger after these calls. -/
def ledgerOf (calls : List ServiceCall) : Ledger := calls.foldl Ledger.after fun _ => none

/-- The call creates the secret of this name. -/
def ServiceCall.creates (name : String) : ServiceCall → Prop
  | .create _ req _ => req.name = name
  | _ => False

/-- The call deletes the secret of this name. -/
def ServiceCall.deletes (name : String) : ServiceCall → Prop
  | .delete _ other _ => other = name
  | _ => False

/-- The name was created and has not been deleted since. -/
def CreatedIn (name : String) (calls : List ServiceCall) : Prop :=
  ∃ before call after, calls = before ++ call :: after ∧ call.creates name ∧ ∀ c ∈ after, ¬ c.deletes name

theorem createdIn_concat_iff {name : String} {calls : List ServiceCall} {call : ServiceCall} :
    CreatedIn name (calls ++ [call]) ↔ call.creates name ∨ CreatedIn name calls ∧ ¬ call.deletes name := by
  constructor
  · rintro ⟨before, created, after, hsplit, hcreates, hkept⟩
    rcases List.eq_nil_or_concat after with rfl | ⟨init, last, rfl⟩
    · obtain ⟨_, hlast⟩ := List.append_inj' hsplit rfl
      cases hlast
      exact Or.inl hcreates
    · have hsplit' : calls ++ [call] = (before ++ created :: init) ++ [last] := by
        rw [hsplit, List.concat_eq_append]
        simp
      obtain ⟨rfl, hlast⟩ := List.append_inj' hsplit' rfl
      cases hlast
      refine Or.inr ⟨⟨before, created, init, rfl, hcreates, fun c hc => hkept c ?_⟩, hkept _ ?_⟩
      · rw [List.concat_eq_append]
        exact List.mem_append_left _ hc
      · simp
  · rintro (hcreates | ⟨⟨before, created, after, rfl, hcreates, hkept⟩, hcall⟩)
    · exact ⟨calls, call, [], rfl, hcreates, fun c hc => absurd hc List.not_mem_nil⟩
    · refine ⟨before, created, after ++ [call], by simp, hcreates, fun c hc => ?_⟩
      rcases List.mem_append.mp hc with hc | hc
      · exact hkept c hc
      · rw [List.mem_singleton.mp hc]
        exact hcall

theorem after_isSome_iff (ledger : Ledger) (call : ServiceCall) (name : String) :
    (ledger.after call name).isSome ↔ call.creates name ∨ (ledger name).isSome ∧ ¬ call.deletes name := by
  cases call with
  | create actor req d =>
      simp only [Ledger.after, ServiceCall.creates, ServiceCall.deletes, not_false_eq_true, and_true]
      by_cases hname : name = req.name
      · subst hname
        simp
      · rw [Function.update_of_ne hname]
        exact ⟨Or.inr, fun h => h.resolve_left fun he => hname he.symm⟩
  | update actor other req d =>
      simp only [Ledger.after, ServiceCall.creates, ServiceCall.deletes, not_false_eq_true, and_true, false_or]
      by_cases hname : name = other
      · subst hname
        simp
      · rw [Function.update_of_ne hname]
  | rotate actor clientIp other d =>
      simp only [Ledger.after, ServiceCall.creates, ServiceCall.deletes, not_false_eq_true, and_true, false_or]
      by_cases hname : name = other
      · subst hname
        simp
      · rw [Function.update_of_ne hname]
  | delete actor other d =>
      simp only [Ledger.after, ServiceCall.creates, ServiceCall.deletes, false_or]
      by_cases hname : name = other
      · subst hname
        simp
      · rw [Function.update_of_ne hname]
        exact ⟨fun h => ⟨h, fun he => hname he.symm⟩, fun h => h.1⟩
  | expireGrace now => simp [Ledger.after, ServiceCall.creates, ServiceCall.deletes]
  | rewrap => simp [Ledger.after, ServiceCall.creates, ServiceCall.deletes]

/-- A name is in the ledger exactly if it was created and has not been deleted since. -/
theorem ledgerOf_isSome_iff (calls : List ServiceCall) (name : String) :
    (ledgerOf calls name).isSome ↔ CreatedIn name calls := by
  induction calls using List.reverseRecOn with
  | nil =>
      refine ⟨fun h => (nomatch h), ?_⟩
      rintro ⟨before, call, after, hsplit, _⟩
      simp at hsplit
  | append_singleton calls call ih =>
      rw [ledgerOf, List.foldl_concat, after_isSome_iff, createdIn_concat_iff]
      exact or_congr_right (and_congr_left fun _ => ih)

end HyperionVault
