import HyperionVault.Core.Config
import HyperionVault.Service.KeyWrapper
import Mathlib.Algebra.GroupWithZero.Nat
import Mathlib.Algebra.Order.BigOperators.Group.List

/-!
# The KMS providers

`kms.rs`: the AWS client, the local master key and the wrapper that retries. Each of them is a `Kms`, so what is proved of
the service for any `Kms` holds for what `build` returns.

* `localKms`, `AwsService`, `awsKms` : the two backends with the laws of `Kms`;
* `retryFrom`, `retryingKms` : the loop that `RetryingKms` runs for each request;
* `retries_exact` : how many attempts it makes, how long it waits and what it answers;
* `build`, `alike_nodes_share_keys` : keys survive any number of re-wraps by the nodes of a cluster.
-/

namespace HyperionVault
open Lib

/-! ## The backends -/

def toKms {α : Type} (r : CoreResult α) : Except String α := r.mapError CoreError.message

theorem toKms_eq_ok {α : Type} {r : CoreResult α} {a : α} : toKms r = .ok a ↔ r = .ok a := by
  cases r <;> simp [toKms, Except.mapError]

theorem toKms_map_eq_ok {α β : Type} {r : CoreResult α} {f : α → β} {b : β} (h : toKms (r.map f) = .ok b) :
    ∃ a, r = .ok a ∧ f a = b := by
  cases r with
  | error e => cases h
  | ok a =>
      cases h
      exact ⟨a, rfl, rfl⟩

section Local
variable (aead : Aead) (L : LocalKeyWrapper) (random : Nat → Dek × Nonce)

/-- The local provider ignores the context and the material. -/
def localKms : Kms where
  generateDataKey _ draw _ :=
    toKms ((L.generateDataKey aead (random draw)).map fun key => DataKey.mk key.plaintext.val key.wrapped key.keyId)
  decryptDataKey wrapped keyId _ := toKms ((L.unwrapDataKey aead wrapped keyId).map Subtype.val)
  reencryptDataKey _ draw wrapped keyId _ := toKms (L.rewrap aead (random draw).2 wrapped keyId)
  decrypt_generate := by
    intro material draw context key h
    obtain ⟨wrapped, hkey, rfl⟩ := toKms_map_eq_ok h
    obtain ⟨hplain, _, hwrap⟩ := LocalKeyWrapper.generateDataKey_eq_ok hkey
    dsimp only
    rw [LocalKeyWrapper.unwrapDataKey_wrapDek hwrap, hplain]
    rfl
  decrypt_reencrypt := by
    intro material draw wrapped keyId context wrapped' keyId' dek h hdek
    obtain ⟨_, dek', hunwrap, hwrap⟩ := LocalKeyWrapper.rewrap_eq_ok (toKms_eq_ok.mp h)
    rw [hunwrap] at hdek
    rw [LocalKeyWrapper.unwrapDataKey_wrapDek hwrap]
    exact hdek

end Local

/-- A response with a key, each part of which the client library has as an option. -/
structure AwsKey where
  plaintext : Option Bytes
  ciphertextBlob : Option Bytes
  keyId : Option String

/-- The service behind the client, for one account: it unwraps what it has wrapped, under the key it names or, where it
names none, the key of the request, and for the same context. -/
structure AwsService where
  generateDataKey (material : Int64) (draw : Nat) (keyId : String) (context : KmsContext) : Except String AwsKey
  decrypt (blob : Bytes) (keyId : String) (context : KmsContext) : Except String (Option Bytes)
  reEncrypt (material : Int64) (draw : Nat) (blob : Bytes) (sourceKeyId destinationKeyId : String)
    (sourceContext destinationContext : KmsContext) : Except String AwsKey
  decrypt_generated : ∀ {material draw keyId context out plaintext blob},
    generateDataKey material draw keyId context = .ok out → out.plaintext = some plaintext →
    out.ciphertextBlob = some blob → decrypt blob (out.keyId.getD keyId) context = .ok (some plaintext)
  decrypt_reEncrypted : ∀ {material draw blob source destination context context' out plaintext blob'},
    reEncrypt material draw blob source destination context context' = .ok out → out.ciphertextBlob = some blob' →
    decrypt blob source context = .ok (some plaintext) →
    decrypt blob' (out.keyId.getD destination) context' = .ok (some plaintext)

/-- `send` and what follows it: the error of a request that was not answered. -/
def awsSend {α : Type} (request : String) (r : Except String α) : Except String α :=
  r.mapError fun err => "kms " ++ request ++ " failed: " ++ err

/-- `context` on an option. -/
def present {α : Type} (message : String) : Option α → Except String α
  | none => .error message
  | some a => .ok a

section Aws
variable (service : AwsService) (keyId : String)

def awsGenerate (out : AwsKey) : Except String DataKey := do
  let plaintext ← present "kms returned no plaintext data key" out.plaintext
  let plaintext ← toKms (dekFromSlice plaintext)
  let wrapped ← present "kms returned no ciphertext blob" out.ciphertextBlob
  return { plaintext := plaintext.val, wrapped := wrapped, keyId := out.keyId.getD keyId }

def awsDecrypt (out : Option Bytes) : Except String Bytes := do
  let plaintext ← present "kms returned no plaintext" out
  let dek ← toKms (dekFromSlice plaintext)
  return dek.val

def awsReencrypt (out : AwsKey) : Except String (Bytes × String) := do
  let blob ← present "kms re_encrypt returned no ciphertext blob" out.ciphertextBlob
  return (blob, out.keyId.getD keyId)

theorem present_eq_ok {α : Type} {message : String} {o : Option α} {a : α} : present message o = .ok a ↔ o = some a := by
  cases o <;> simp [present]

theorem dekFromSlice_toKms {bytes : Bytes} {dek : Dek} (h : toKms (dekFromSlice bytes) = .ok dek) : dek.val = bytes := by
  unfold dekFromSlice at h
  split_ifs at h
  · cases h
    rfl
  · cases h

theorem awsGenerate_eq_ok {out : AwsKey} {key : DataKey} (h : awsGenerate keyId out = .ok key) :
    out.plaintext = some key.plaintext ∧ out.ciphertextBlob = some key.wrapped ∧ key.keyId = out.keyId.getD keyId ∧
      key.plaintext.length = dekLen := by
  obtain ⟨plaintext, hplain, h⟩ := bind_eq_ok.mp h
  obtain ⟨dek, hdek, h⟩ := bind_eq_ok.mp h
  obtain ⟨wrapped, hwrapped, h⟩ := bind_eq_ok.mp h
  cases h
  rw [← dekFromSlice_toKms hdek] at hplain
  exact ⟨present_eq_ok.mp hplain, present_eq_ok.mp hwrapped, rfl, dek.property⟩

theorem awsDecrypt_eq_ok {out : Option Bytes} {dek : Bytes} :
    awsDecrypt out = .ok dek ↔ out = some dek ∧ dek.length = dekLen := by
  cases out with
  | none => simp [awsDecrypt, present, bind, Except.bind]
  | some plaintext =>
      simp only [awsDecrypt, present, bind, Except.bind, dekFromSlice]
      split_ifs with hlength
      · simp only [toKms, Except.mapError, pure, Except.pure, Except.ok.injEq, Option.some.injEq]
        exact ⟨fun h => ⟨h, h ▸ hlength⟩, fun h => h.1⟩
      · simp only [toKms, Except.mapError, Option.some.injEq]
        exact ⟨fun h => (by cases h), fun h => absurd (h.1 ▸ h.2) hlength⟩

theorem awsReencrypt_eq_ok {out : AwsKey} {blob : Bytes} {keyId' : String}
    (h : awsReencrypt keyId out = .ok (blob, keyId')) : out.ciphertextBlob = some blob ∧ keyId' = out.keyId.getD keyId := by
  obtain ⟨_, hblob, h⟩ := bind_eq_ok.mp h
  cases h
  exact ⟨present_eq_ok.mp hblob, rfl⟩

theorem awsSend_eq_ok {α : Type} {request : String} {r : Except String α} {a : α} :
    awsSend request r = .ok a ↔ r = .ok a := by
  cases r <;> simp [awsSend, Except.mapError]

def awsKms : Kms where
  generateDataKey material draw context :=
    awsSend "generate_data_key" (service.generateDataKey material draw keyId context) >>= awsGenerate keyId
  decryptDataKey wrapped sourceKeyId context :=
    awsSend "decrypt" (service.decrypt wrapped sourceKeyId context) >>= awsDecrypt
  reencryptDataKey material draw wrapped sourceKeyId context :=
    awsSend "re_encrypt" (service.reEncrypt material draw wrapped sourceKeyId keyId context context) >>=
      awsReencrypt keyId
  decrypt_generate := by
    intro material draw context key h
    obtain ⟨out, hsend, hout⟩ := bind_eq_ok.mp h
    obtain ⟨hplain, hblob, hid, hlength⟩ := awsGenerate_eq_ok keyId hout
    have hdecrypt := service.decrypt_generated (awsSend_eq_ok.mp hsend) hplain hblob
    rw [← hid] at hdecrypt
    exact bind_eq_ok.mpr ⟨_, awsSend_eq_ok.mpr hdecrypt, awsDecrypt_eq_ok.mpr ⟨rfl, hlength⟩⟩
  decrypt_reencrypt := by
    intro material draw wrapped source context wrapped' keyId' dek h hdek
    obtain ⟨out, hsend, hout⟩ := bind_eq_ok.mp h
    obtain ⟨hblob, rfl⟩ := awsReencrypt_eq_ok keyId hout
    obtain ⟨plaintext, hsend', hplain⟩ := bind_eq_ok.mp hdek
    obtain ⟨rfl, hlength⟩ := awsDecrypt_eq_ok.mp hplain
    have hdecrypt := service.decrypt_reEncrypted (awsSend_eq_ok.mp hsend) hblob (awsSend_eq_ok.mp hsend')
    exact bind_eq_ok.mpr ⟨_, awsSend_eq_ok.mpr hdecrypt, awsDecrypt_eq_ok.mpr ⟨rfl, hlength⟩⟩

end Aws

/-! ## Retries -/

/-- The wait after a failed attempt, in milliseconds. -/
def backoff (attempt : UInt32) : Nat := min (2 ^ 64 - 1) (100 * 2 ^ min attempt.toNat 6)

theorem toNat_succ_of_lt {a b : UInt32} (h : a < b) : (a + 1).toNat = a.toNat + 1 := by
  have ha : a.toNat < b.toNat := UInt32.lt_iff_toNat_lt.mp h
  have hb := b.toNat_lt
  rw [UInt32.toNat_add, Nat.mod_eq_of_lt]
  · rfl
  · exact lt_of_le_of_lt (Nat.succ_le_of_lt ha) hb

/-- The loop of every request; `answers` says what the inner provider answers to each attempt. The result comes with
the waits. -/
def retryFrom {α : Type} (maxRetries : UInt32) (answers : Nat → Except String α) (attempt : UInt32) :
    Except String α × List Nat :=
  match answers attempt.toNat with
  | .ok value => (.ok value, [])
  | .error err =>
      if attempt < maxRetries then
        let (result, waits) := retryFrom maxRetries answers (attempt + 1)
        (result, backoff attempt :: waits)
      else (.error err, [])
termination_by maxRetries.toNat - attempt.toNat
decreasing_by
  rename_i h
  rw [toNat_succ_of_lt h]
  have hlt := UInt32.lt_iff_toNat_lt.mp h
  omega

section Retries
variable {α : Type} {maxRetries : UInt32} {answers : Nat → Except String α} {attempt : UInt32}

theorem retryFrom_ok {value : α} (h : answers attempt.toNat = .ok value) :
    retryFrom maxRetries answers attempt = (.ok value, []) := by
  rw [retryFrom, h]

/-- An answer that is no error, or the last one, is the result. -/
theorem retryFrom_stop (h : (∃ value, answers attempt.toNat = .ok value) ∨ ¬attempt < maxRetries) :
    retryFrom maxRetries answers attempt = (answers attempt.toNat, []) := by
  cases hanswer : answers attempt.toNat with
  | ok value => exact retryFrom_ok hanswer
  | error err =>
      rw [retryFrom, hanswer]
      refine if_neg (h.resolve_left ?_)
      rintro ⟨value, hvalue⟩
      cases hanswer.symm.trans hvalue

theorem retryFrom_again {err : String} (h : answers attempt.toNat = .error err) (hlt : attempt < maxRetries) :
    retryFrom maxRetries answers attempt = ((retryFrom maxRetries answers (attempt + 1)).1,
      backoff attempt :: (retryFrom maxRetries answers (attempt + 1)).2) := by
  rw [retryFrom, h]
  exact if_pos hlt

/-- Attempt `n` gives the answer, those before it have failed, each with its wait, and it either succeeds or is the
last one. -/
def Retried (maxRetries : UInt32) (answers : Nat → Except String α) (first : Nat) (out : Except String α × List Nat) :
    Prop :=
  ∃ n, first ≤ n ∧ n ≤ maxRetries.toNat ∧ out.1 = answers n ∧
    out.2 = (List.range' first (n - first)).map (fun i => 100 * 2 ^ min i 6) ∧
    (∀ i, first ≤ i → i < n → ∃ err, answers i = .error err) ∧ ((∃ value, answers n = .ok value) ∨ n = maxRetries.toNat)

theorem backoff_eq (attempt : UInt32) : backoff attempt = 100 * 2 ^ min attempt.toNat 6 := by
  have hpow : 2 ^ min attempt.toNat 6 ≤ 2 ^ 6 := Nat.pow_le_pow_right (by decide) (Nat.min_le_right _ _)
  unfold backoff
  omega

theorem retryFrom_retried (hle : attempt ≤ maxRetries) :
    Retried maxRetries answers attempt.toNat (retryFrom maxRetries answers attempt) := by
  have hle' := UInt32.le_iff_toNat_le.mp hle
  induction h : maxRetries.toNat - attempt.toNat using Nat.strong_induction_on generalizing attempt with
  | _ left ih =>
  by_cases hstop : (∃ value, answers attempt.toNat = .ok value) ∨ ¬attempt < maxRetries
  · refine ⟨attempt.toNat, le_refl _, hle', ?_, ?_, fun i hi hlt => absurd hlt (not_lt.mpr hi), ?_⟩
    · rw [retryFrom_stop hstop]
    · rw [retryFrom_stop hstop, Nat.sub_self]
      rfl
    · refine hstop.imp_right fun hlast => ?_
      rw [UInt32.lt_iff_toNat_lt] at hlast
      omega
  · obtain ⟨hfails, hlt⟩ := not_or.mp hstop
    rw [not_not] at hlt
    cases hanswer : answers attempt.toNat with
    | ok value => exact absurd ⟨value, hanswer⟩ hfails
    | error err =>
        have hsucc := toNat_succ_of_lt hlt
        have hlt' := UInt32.lt_iff_toNat_lt.mp hlt
        have hnext : attempt + 1 ≤ maxRetries := by
          rw [UInt32.le_iff_toNat_le, hsucc]
          exact hlt'
        obtain ⟨n, hfirst, hlast, hresult, hwaits, hfailed, hend⟩ :=
          ih _ (by omega) hnext (UInt32.le_iff_toNat_le.mp hnext) rfl
        rw [hsucc] at hfirst hwaits hfailed
        refine ⟨n, by omega, hlast, ?_, ?_, ?_, hend⟩
        · rw [retryFrom_again hanswer hlt]
          exact hresult
        · have hrange : n - attempt.toNat = (n - (attempt.toNat + 1)) + 1 := by omega
          rw [retryFrom_again hanswer hlt, hrange, List.range'_succ, List.map_cons, ← backoff_eq]
          exact congrArg (backoff attempt :: ·) hwaits
        · intro i hi hin
          rcases Nat.eq_or_lt_of_le hi with rfl | hgt
          · exact ⟨err, hanswer⟩
          · exact hfailed i hgt hin

theorem retryFrom_eq_ok {value : α} (h : (retryFrom maxRetries answers 0).1 = .ok value) :
    ∃ n, answers n = .ok value := by
  have hretried : Retried maxRetries answers 0 (retryFrom maxRetries answers 0) := retryFrom_retried UInt32.zero_le
  obtain ⟨n, _, _, hresult, _⟩ := hretried
  exact ⟨n, hresult.symm.trans h⟩

/-- The waits of a request add up to less than one longest wait for each retry. -/
theorem waits_sum_le (n : Nat) : ((List.range' 0 n).map (fun i => 100 * 2 ^ min i 6)).sum ≤ 6400 * n := by
  have hle : ∀ wait ∈ (List.range' 0 n).map (fun i => 100 * 2 ^ min i 6), wait ≤ 6400 := by
    intro wait hwait
    obtain ⟨i, _, rfl⟩ := List.mem_map.mp hwait
    have hpow : 2 ^ min i 6 ≤ 2 ^ 6 := Nat.pow_le_pow_right (by decide) (Nat.min_le_right _ _)
    omega
  have hsum := List.sum_le_card_nsmul _ _ hle
  rw [List.length_map, List.length_range', Nat.nsmul_eq_mul, Nat.mul_comm] at hsum
  exact hsum

end Retries

/-- What the inner provider answers to the attempts of each request. -/
structure KmsAnswers where
  generateDataKey (attempt : Nat) (context : KmsContext) : Except String DataKey
  decryptDataKey (attempt : Nat) (wrapped : Bytes) (keyId : String) (context : KmsContext) : Except String Bytes
  reencryptDataKey (attempt : Nat) (wrapped : Bytes) (sourceKeyId : String) (context : KmsContext) :
    Except String (Bytes × String)
  latestRotationAt (attempt : Nat) : Except String (Option Int64)

namespace RetryingKms
variable (inner : KmsAnswers) (maxRetries : UInt32)

def generateDataKey (context : KmsContext) : Except String DataKey × List Nat :=
  retryFrom maxRetries (fun attempt => inner.generateDataKey attempt context) 0

def decryptDataKey (wrapped : Bytes) (keyId : String) (context : KmsContext) : Except String Bytes × List Nat :=
  retryFrom maxRetries (fun attempt => inner.decryptDataKey attempt wrapped keyId context) 0

def reencryptDataKey (wrapped : Bytes) (sourceKeyId : String) (context : KmsContext) :
    Except String (Bytes × String) × List Nat :=
  retryFrom maxRetries (fun attempt => inner.reencryptDataKey attempt wrapped sourceKeyId context) 0

def latestRotationAt : Except String (Option Int64) × List Nat := retryFrom maxRetries inner.latestRotationAt 0

end RetryingKms

/-- Whatever the inner provider answers: each request of the retrying provider returns the first answer that is not an
error among the first `maxRetries + 1`, or else the last of them; it waits 100 ms after the first failure and twice as
long after each further one up to 6.4 s, so at most 6.4 s for each retry. -/
theorem retries_exact (inner : KmsAnswers) (maxRetries : UInt32) :
    (∀ context, Retried maxRetries (fun attempt => inner.generateDataKey attempt context) 0
      (RetryingKms.generateDataKey inner maxRetries context)) ∧
    (∀ wrapped keyId context, Retried maxRetries (fun attempt => inner.decryptDataKey attempt wrapped keyId context) 0
      (RetryingKms.decryptDataKey inner maxRetries wrapped keyId context)) ∧
    (∀ wrapped keyId context, Retried maxRetries (fun attempt => inner.reencryptDataKey attempt wrapped keyId context) 0
      (RetryingKms.reencryptDataKey inner maxRetries wrapped keyId context)) ∧
    Retried maxRetries inner.latestRotationAt 0 (RetryingKms.latestRotationAt inner maxRetries) ∧
    ∀ (α : Type) (answers : Nat → Except String α) out, Retried maxRetries answers 0 out →
      out.2.sum ≤ 6400 * maxRetries.toNat := by
  have hzero : (0 : UInt32) ≤ maxRetries := UInt32.zero_le
  refine ⟨fun _ => retryFrom_retried hzero, fun _ _ _ => retryFrom_retried hzero,
    fun _ _ _ => retryFrom_retried hzero, retryFrom_retried hzero, fun α answers out h => ?_⟩
  obtain ⟨n, _, hle, _, hwaits, _⟩ := h
  rw [hwaits]
  exact (waits_sum_le _).trans (Nat.mul_le_mul_left _ hle)

/-! ## What the configuration builds -/

/-- Retries of a provider; each attempt draws anew. -/
def retryingKms (inner : Kms) (maxRetries : UInt32) (redraw : Nat → Nat → Nat) : Kms where
  generateDataKey material draw context :=
    (retryFrom maxRetries (fun attempt => inner.generateDataKey material (redraw draw attempt) context) 0).1
  decryptDataKey wrapped keyId context := (retryFrom maxRetries (fun _ => inner.decryptDataKey wrapped keyId context) 0).1
  reencryptDataKey material draw wrapped keyId context :=
    (retryFrom maxRetries (fun attempt => inner.reencryptDataKey material (redraw draw attempt) wrapped keyId context) 0).1
  decrypt_generate := by
    intro material draw context key h
    obtain ⟨attempt, hkey⟩ := retryFrom_eq_ok h
    exact congrArg Prod.fst (retryFrom_ok (inner.decrypt_generate hkey))
  decrypt_reencrypt := by
    intro material draw wrapped keyId context wrapped' keyId' dek h hdek
    obtain ⟨attempt, hpair⟩ := retryFrom_eq_ok h
    obtain ⟨_, hdek⟩ := retryFrom_eq_ok hdek
    exact congrArg Prod.fst (retryFrom_ok (inner.decrypt_reencrypt hpair hdek))

inductive KmsProvider where
  | aws (keyId : String)
  | local_ (wrapper : LocalKeyWrapper)
  | retrying (inner : KmsProvider) (maxRetries : UInt32)

/-- `build`; `master` is drawn where no key is configured. -/
def build (B : Base64) (cfg : Config) (master : Dek) : CoreResult KmsProvider := do
  let inner ← match cfg.kmsMode with
    | .aws => pure (.aws cfg.kmsKeyId)
    | .local_ => do
        let wrapper ← match cfg.localMasterKeyB64 with
          | some encoded => LocalKeyWrapper.fromBase64 B encoded "local"
          | none => pure ⟨master, "local-dev"⟩
        pure (.local_ wrapper)
  if cfg.kmsMaxRetries = 0 then return inner
  else return .retrying inner cfg.kmsMaxRetries

section Providers
variable (service : AwsService) (aead : Aead) (random : Nat → Dek × Nonce) (redraw : Nat → Nat → Nat)

def KmsProvider.kms : KmsProvider → Kms
  | .aws keyId => awsKms service keyId
  | .local_ wrapper => localKms aead wrapper random
  | .retrying inner maxRetries => retryingKms inner.kms maxRetries redraw

variable {service aead random redraw}

/-- Every provider gives keys of the right length only. -/
theorem length_of_decryptDataKey (provider : KmsProvider) {wrapped : Bytes} {keyId : String} {context : KmsContext}
    {dek : Bytes} (h : (provider.kms service aead random redraw).decryptDataKey wrapped keyId context = .ok dek) :
    dek.length = dekLen := by
  induction provider with
  | aws id =>
      obtain ⟨out, _, hout⟩ := bind_eq_ok.mp h
      exact (awsDecrypt_eq_ok.mp hout).2
  | local_ wrapper =>
      obtain ⟨dek', _, rfl⟩ := toKms_map_eq_ok h
      exact dek'.property
  | retrying inner maxRetries ih =>
      obtain ⟨_, hinner⟩ := retryFrom_eq_ok h
      exact ih hinner

/-- Retries neither find nor lose a key. -/
theorem retrying_decrypt {inner : Kms} {maxRetries : UInt32} {wrapped : Bytes} {keyId : String} {context : KmsContext}
    {dek : Bytes} : (retryingKms inner maxRetries redraw).decryptDataKey wrapped keyId context = .ok dek ↔
      inner.decryptDataKey wrapped keyId context = .ok dek := by
  constructor
  · intro h
    exact (retryFrom_eq_ok h).elim fun _ hinner => hinner
  · intro h
    exact congrArg Prod.fst (retryFrom_ok h)

/-- A node opens what its backend opens, whatever number of retries is configured. -/
theorem build_decrypt {B : Base64} {cfg : Config} {master : Dek} {provider : KmsProvider}
    (h : build B cfg master = .ok provider) (wrapped : Bytes) (keyId : String) (context : KmsContext) (dek : Bytes) :
    (cfg.kmsMode = .aws → ((provider.kms service aead random redraw).decryptDataKey wrapped keyId context = .ok dek ↔
      (awsSend "decrypt" (service.decrypt wrapped keyId context) >>= awsDecrypt) = .ok dek)) ∧
    ∀ encoded, cfg.kmsMode = .local_ → cfg.localMasterKeyB64 = some encoded →
      ((provider.kms service aead random redraw).decryptDataKey wrapped keyId context = .ok dek ↔
        ∃ L, LocalKeyWrapper.fromBase64 B encoded "local" = .ok L ∧
          toKms ((L.unwrapDataKey aead wrapped keyId).map Subtype.val) = .ok dek) := by
  have hretries : ∀ inner, (if cfg.kmsMaxRetries = 0 then pure inner else pure (.retrying inner cfg.kmsMaxRetries)) =
      (.ok provider : CoreResult KmsProvider) →
      ((provider.kms service aead random redraw).decryptDataKey wrapped keyId context = .ok dek ↔
        (inner.kms service aead random redraw).decryptDataKey wrapped keyId context = .ok dek) := by
    intro inner hinner
    split_ifs at hinner
    · cases hinner
      exact Iff.rfl
    · cases hinner
      exact retrying_decrypt
  unfold build at h
  constructor
  · intro hmode
    rw [hmode] at h
    exact hretries _ h
  · intro encoded hmode hkey
    rw [hmode, hkey] at h
    obtain ⟨L, hL, h⟩ := bind_eq_ok.mp h
    rw [hretries _ h, hL]
    constructor
    · exact fun h => ⟨L, rfl, h⟩
    · rintro ⟨_, h', h⟩
      cases h'
      exact h

end Providers

/-! ## Nodes -/

/-- Two nodes of one cluster: both use AWS, or both have the same local key. -/
def KmsAlike (cfg cfg' : Config) : Prop :=
  (cfg.kmsMode = .aws ∧ cfg'.kmsMode = .aws) ∨
    cfg.kmsMode = .local_ ∧ cfg'.kmsMode = .local_ ∧ ∃ encoded encoded', cfg.localMasterKeyB64 = some encoded ∧
      cfg'.localMasterKeyB64 = some encoded' ∧ trim encoded.toList = trim encoded'.toList

/-- A wrapped key with its id that nodes re-wrap in turn, each for the material of the time and with a draw of its
own. -/
def reencryptAll {ι : Type} (kms : ι → Kms) (context : KmsContext) :
    List (ι × Int64 × Nat) → Bytes × String → Except String (Bytes × String)
  | [], blob => .ok blob
  | (node, material, draw) :: rest, (wrapped, keyId) => do
      let blob ← (kms node).reencryptDataKey material draw wrapped keyId context
      reencryptAll kms context rest blob

section Nodes
variable {ι : Type} {service : AwsService} {aead : Aead} {random random' : Nat → Dek × Nonce}
  {redraw redraw' : Nat → Nat → Nat}

theorem decrypt_alike {B : Base64} {cfg cfg' : Config} {master master' : Dek} {provider provider' : KmsProvider}
    (h : build B cfg master = .ok provider) (h' : build B cfg' master' = .ok provider') (halike : KmsAlike cfg cfg')
    {wrapped : Bytes} {keyId : String} {context : KmsContext} {dek : Bytes}
    (hdek : (provider.kms service aead random redraw).decryptDataKey wrapped keyId context = .ok dek) :
    (provider'.kms service aead random' redraw').decryptDataKey wrapped keyId context = .ok dek := by
  have hfirst := @build_decrypt service aead random redraw _ _ _ _ h wrapped keyId context dek
  have hsecond := @build_decrypt service aead random' redraw' _ _ _ _ h' wrapped keyId context dek
  rcases halike with ⟨hmode, hmode'⟩ | ⟨hmode, hmode', encoded, encoded', hkey, hkey', htrim⟩
  · exact (hsecond.1 hmode').mpr ((hfirst.1 hmode).mp hdek)
  · have hsame : LocalKeyWrapper.fromBase64 B encoded' "local" = LocalKeyWrapper.fromBase64 B encoded "local" := by
      rw [LocalKeyWrapper.fromBase64_eq, LocalKeyWrapper.fromBase64_eq, htrim]
    rw [hsecond.2 encoded' hmode' hkey', hsame]
    exact (hfirst.2 encoded hmode hkey).mp hdek

theorem decrypt_reencryptAll {kms : ι → Kms} {context : KmsContext} {dek : Bytes}
    (halike : ∀ {i j wrapped keyId}, (kms i).decryptDataKey wrapped keyId context = .ok dek →
      (kms j).decryptDataKey wrapped keyId context = .ok dek) (rewraps : List (ι × Int64 × Nat))
    {wrapped wrapped' : Bytes} {keyId keyId' : String}
    (hdek : ∀ i, (kms i).decryptDataKey wrapped keyId context = .ok dek)
    (h : reencryptAll kms context rewraps (wrapped, keyId) = .ok (wrapped', keyId')) (i : ι) :
    (kms i).decryptDataKey wrapped' keyId' context = .ok dek := by
  induction rewraps generalizing wrapped keyId with
  | nil =>
      cases h
      exact hdek i
  | cons rewrap rewraps ih =>
      obtain ⟨⟨blob, id⟩, hfirst, hrest⟩ := bind_eq_ok.mp h
      exact ih (fun j => halike ((kms rewrap.1).decrypt_reencrypt hfirst (hdek rewrap.1))) hrest

end Nodes

/-- In a cluster whose nodes all use AWS or all have the same local key, up to white space around it and whatever retries
each of them has: a data key that one node makes has 32 bytes, and after any number of re-wraps by any nodes every node
decrypts it to the same key. -/
theorem alike_nodes_share_keys {ι : Type} (B : Base64) (service : AwsService) (aead : Aead) (random : ι → Nat → Dek × Nonce)
    (redraw : ι → Nat → Nat → Nat) (cfg : ι → Config) (master : ι → Dek) (provider : ι → KmsProvider)
    (hbuild : ∀ i, build B (cfg i) (master i) = .ok (provider i)) (halike : ∀ i j, KmsAlike (cfg i) (cfg j))
    (maker : ι) (material : Int64) (draw : Nat) (context : KmsContext) (key : DataKey)
    (hkey : ((provider maker).kms service aead (random maker) (redraw maker)).generateDataKey material draw context =
      .ok key)
    (rewraps : List (ι × Int64 × Nat)) (wrapped : Bytes) (keyId : String)
    (hrewraps : reencryptAll (fun i => (provider i).kms service aead (random i) (redraw i)) context rewraps
      (key.wrapped, key.keyId) = .ok (wrapped, keyId)) :
    key.plaintext.length = dekLen ∧
      ∀ i, ((provider i).kms service aead (random i) (redraw i)).decryptDataKey wrapped keyId context =
        .ok key.plaintext := by
  have hmade := ((provider maker).kms service aead (random maker) (redraw maker)).decrypt_generate hkey
  refine ⟨length_of_decryptDataKey (provider maker) hmade, fun i => ?_⟩
  let kms (j : ι) := (provider j).kms service aead (random j) (redraw j)
  have hall : ∀ j, (kms j).decryptDataKey key.wrapped key.keyId context = .ok key.plaintext :=
    fun j => decrypt_alike (hbuild maker) (hbuild j) (halike maker j) hmade
  have hshared : ∀ {i j wrapped keyId}, (kms i).decryptDataKey wrapped keyId context = .ok key.plaintext →
      (kms j).decryptDataKey wrapped keyId context = .ok key.plaintext :=
    fun {i j} _ _ h => decrypt_alike (hbuild i) (hbuild j) (halike i j) h
  exact decrypt_reencryptAll hshared rewraps hall hrewraps i

/-- A node with the key of the concrete node, in a text of its own, and its retries. -/
def demoConfig (after : String) (retries : UInt32) : Config where
  nodeId := 1
  peers := .empty
  apiListen := 8200
  dbPath := "vault.redb"
  bootstrapToken := none
  allowedIps := ""
  trustProxy := false
  readConsistencyLinearizable := false
  kmsMode := .local_
  kmsKeyId := ""
  localMasterKeyB64 := some (String.ofList ([] ++ wideEngine.encode demoWrapper.master.val ++ after.toList))
  raftBind := "0.0.0.0"
  clusterToken := none
  clusterAuthRequired := false
  raftPeerCheck := false
  rotationPollSecs := 15
  pgTargetHosts := ""
  pgTargetTls := .prefer
  pgTargetCaFile := none
  dekCacheTtlSecs := 300
  kmsMaxRetries := retries
  kmsRewrapEnabled := false
  kmsRewrapPollSecs := 86400
  kmsRewrapMaxPerSec := 10
  authMaxFailures := 5
  authLockoutSecs := 900
  authWindowSecs := 300
  tokenTouchSecs := 300

/-- A service that never answers. -/
def silentService : AwsService where
  generateDataKey _ _ _ _ := .error "timeout"
  decrypt _ _ _ := .error "timeout"
  reEncrypt _ _ _ _ _ _ _ := .error "timeout"
  decrypt_generated := by
    intro _ _ _ _ _ _ _ h
    cases h
  decrypt_reEncrypted := by
    intro _ _ _ _ _ _ _ _ _ _ h
    cases h

theorem build_demoConfig (master : Dek) {after : String} (hafter : ∀ c ∈ after.toList, isWhiteSpace c = true)
    (retries : UInt32) : build wideEngine (demoConfig after retries) master =
      .ok (if retries = 0 then .local_ demoWrapper else .retrying (.local_ demoWrapper) retries) := by
  have hbefore : ∀ c ∈ ([] : List Char), isWhiteSpace c = true := fun c hc => absurd hc List.not_mem_nil
  have hkey := LocalKeyWrapper.fromBase64_surrounded wideEngine demoWrapper.master "local" hbefore hafter
  change (LocalKeyWrapper.fromBase64 _ _ "local" >>= _) = _
  rw [hkey]
  change (if retries = 0 then _ else _) = _
  split_ifs <;> rfl

/-- What every node of the concrete cluster draws. -/
def demoDraw (_ : Bool) (_ : Nat) : Dek × Nonce := (⟨List.replicate 32 1, rfl⟩, ⟨List.replicate 24 2, rfl⟩)

def demoProvider (retries : Bool) : KmsProvider :=
  if retries then .retrying (.local_ demoWrapper) 3 else .local_ demoWrapper

def demoKms (retries : Bool) : Kms :=
  (demoProvider retries).kms silentService plainAead (demoDraw retries) fun draw _ => draw

/-- The key that they draw, wrapped. -/
def demoBlob : Bytes × String := (List.replicate 24 2 ++ (List.replicate 32 7 ++ List.replicate 32 1), "local")

theorem alike_nodes_share_keys_local :
    reencryptAll demoKms [("secret", "a")] [(true, 5, 0)] demoBlob = .ok demoBlob ∧
    ∀ retries, (demoKms retries).decryptDataKey demoBlob.1 demoBlob.2 [("secret", "a")] =
      .ok (List.replicate 32 1) := by
  have hrewrap : reencryptAll demoKms [("secret", "a")] [(true, 5, 0)] demoBlob = .ok demoBlob := by
    have hinner : (localKms plainAead demoWrapper (demoDraw true)).reencryptDataKey 5 0 demoBlob.1 demoBlob.2
        [("secret", "a")] = .ok demoBlob := rfl
    exact bind_eq_ok.mpr ⟨_, congrArg Prod.fst (retryFrom_ok hinner), rfl⟩
  have hspace : ∀ retries : Bool, ∀ c ∈ (if retries then "\n" else "" : String).toList, isWhiteSpace c = true := by
    have hall : ∀ retries : Bool, (if retries then "\n" else "" : String).toList.all isWhiteSpace = true := by decide
    exact fun retries => List.all_eq_true.mp (hall retries)
  refine ⟨hrewrap, (alike_nodes_share_keys wideEngine silentService plainAead demoDraw (fun _ draw _ => draw)
    (fun retries => demoConfig (if retries then "\n" else "") (if retries then 3 else 0))
    (fun _ => ⟨List.replicate 32 0, rfl⟩) demoProvider ?_ ?_ false 0 0 [("secret", "a")] ⟨_, _, _⟩ rfl [(true, 5, 0)]
    _ _ hrewrap).2⟩
  · intro retries
    cases retries with
    | false => exact build_demoConfig _ (hspace false) 0
    | true => exact build_demoConfig _ (hspace true) 3
  · intro i j
    have htrim : ∀ after : String, (∀ c ∈ after.toList, isWhiteSpace c = true) →
        trim (String.ofList ([] ++ wideEngine.encode demoWrapper.master.val ++ after.toList)).toList =
          wideEngine.encode demoWrapper.master.val := by
      intro after hafter
      rw [String.toList_ofList]
      exact wideEngine.trim_encode _ (fun _ h => by cases h) hafter
    exact Or.inr ⟨rfl, rfl, _, _, rfl, rfl, (htrim _ (hspace i)).trans (htrim _ (hspace j)).symm⟩

end HyperionVault
