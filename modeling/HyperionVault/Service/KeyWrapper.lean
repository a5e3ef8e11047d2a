import HyperionVault.Lib.Base64
import HyperionVault.Service.Concrete

/-!
# Envelopes and the local master key

`crypto.rs` of the core crate: a value is sealed with a data key of its own, and the data key is wrapped by a
`KeyWrapper`. `LocalKeyWrapper` wraps with a master key from the configuration; what it draws at random is an argument.

* `CoreError`, `Dek`, `dekFromSlice` : keys have 32 bytes;
* `KeyWrapper`, `sealEnvelope`, `openEnvelope` : over any wrapper;
* `LocalKeyWrapper` : `wrapDek`, `unwrapDataKey`, `rewrap`, and `fromBase64` for its key;
* `unwrapDataKey_wrapDek`, `rewrap_eq` : wrapping again keeps the key;
* `takeKey_eq_ok`, `takeKey_eq_error` : what is taken as a key;
* `fromBase64_surrounded` : the text of a key is taken, with white space around it or not;
* `envelope_survives_rewraps` : any number of re-wraps;
* `unwrapDataKey_exact` : only wrapped keys unwrap.
-/

namespace HyperionVault
open Lib

inductive CoreError where
  | encryption
  | decryption
  | keyWrap
  | keyUnwrap
  | invalidAllowlist (entry : String)
  | keyLength (expected got : Nat)
deriving DecidableEq

def CoreError.message : CoreError → String
  | .encryption => "encryption failed"
  | .decryption => "decryption failed"
  | .keyWrap => "key wrap failed"
  | .keyUnwrap => "key unwrap failed"
  | .invalidAllowlist entry => "invalid IP allowlist entry: " ++ entry
  | .keyLength expected got =>
      "invalid key length: expected " ++ toString expected ++ ", got " ++ toString got

abbrev CoreResult := Except CoreError

def dekLen : Nat := 32

abbrev Dek := { bytes : Bytes // bytes.length = dekLen }

def dekFromSlice (bytes : Bytes) : CoreResult Dek :=
  if h : bytes.length = dekLen then .ok ⟨bytes, h⟩ else .error (.keyLength dekLen bytes.length)

/-- What opens is what was sealed: the tag is a function of the key, the nonce and the text, and it is compared. -/
def Aead.Exact (aead : Aead) : Prop := ∀ {dek nonce aad ciphertext plaintext},
  aead.openWith dek nonce aad ciphertext = some plaintext → aead.sealWith dek nonce aad plaintext = some ciphertext

section Envelopes
variable (aead : Aead)

def sealBytes (dek : Dek) (nonce : Nonce) (aad plaintext : Bytes) : CoreResult Bytes :=
  match aead.sealWith dek.val nonce aad plaintext with
  | none => .error .encryption
  | some ciphertext => .ok ciphertext

def openBytes (dek : Dek) (nonce : Nonce) (aad ciphertext : Bytes) : CoreResult Bytes :=
  match aead.openWith dek.val nonce aad ciphertext with
  | none => .error .decryption
  | some plaintext => .ok plaintext

/-- A fresh data key with its wrapping. -/
structure WrappedKey where
  plaintext : Dek
  wrapped : Bytes
  keyId : String

/-- What wraps data keys, with what it draws at random. -/
structure KeyWrapper (δ : Type) where
  generateDataKey (drawn : δ) : CoreResult WrappedKey
  unwrapDataKey (wrapped : Bytes) (keyId : String) : CoreResult Dek

structure Envelope where
  keyId : String
  wrappedDek : Bytes
  nonce : Nonce
  ciphertext : Bytes

def sealEnvelope {δ : Type} (wrapper : KeyWrapper δ) (drawn : δ) (nonce : Nonce) (aad plaintext : Bytes) :
    CoreResult Envelope := do
  let key ← wrapper.generateDataKey drawn
  let ciphertext ← sealBytes aead key.plaintext nonce aad plaintext
  return { keyId := key.keyId, wrappedDek := key.wrapped, nonce := nonce, ciphertext := ciphertext }

def openEnvelope {δ : Type} (wrapper : KeyWrapper δ) (env : Envelope) (aad : Bytes) : CoreResult Bytes := do
  let dek ← wrapper.unwrapDataKey env.wrappedDek env.keyId
  openBytes aead dek env.nonce aad env.ciphertext

end Envelopes

def wrapAad : Bytes := utf8 "pg_vault:dek-wrap:v1"

structure LocalKeyWrapper where
  master : Dek
  keyId : String

namespace LocalKeyWrapper

/-- With the standard engine of the base64 crate. -/
def fromBase64 (B : Base64) (encoded : String) (keyId : String) : CoreResult LocalKeyWrapper :=
  match B.decode (trim encoded.toList) with
  | none => .error .keyUnwrap
  | some raw =>
      if h : raw.length = dekLen then .ok ⟨⟨raw, h⟩, keyId⟩ else .error (.keyLength dekLen raw.length)

variable (aead : Aead) (L : LocalKeyWrapper)

/-- The nonce, then the sealed key. -/
def wrapDek (nonce : Nonce) (dek : Dek) : CoreResult Bytes :=
  match sealBytes aead L.master nonce wrapAad dek.val with
  | .error _ => .error .keyWrap
  | .ok ciphertext => .ok (nonce.val ++ ciphertext)

def unwrapDataKey (wrapped : Bytes) (_keyId : String) : CoreResult Dek :=
  if h : wrapped.length < nonceLen then .error .keyUnwrap
  else
    match openBytes aead L.master ⟨wrapped.take nonceLen, List.length_take_of_le (not_lt.mp h)⟩ wrapAad
        (wrapped.drop nonceLen) with
    | .error _ => .error .keyUnwrap
    | .ok plaintext => dekFromSlice plaintext

def generateDataKey (drawn : Dek × Nonce) : CoreResult WrappedKey := do
  let wrapped ← L.wrapDek aead drawn.2 drawn.1
  return { plaintext := drawn.1, wrapped := wrapped, keyId := L.keyId }

def rewrap (nonce : Nonce) (wrapped : Bytes) (keyId : String) : CoreResult (Bytes × String) := do
  let dek ← L.unwrapDataKey aead wrapped keyId
  let wrapped' ← L.wrapDek aead nonce dek
  return (wrapped', L.keyId)

def wrapper : KeyWrapper (Dek × Nonce) where
  generateDataKey := L.generateDataKey aead
  unwrapDataKey := L.unwrapDataKey aead

/-- An envelope whose key is wrapped again and again, each time with a nonce of its own. -/
def rewrapAll : List Nonce → Envelope → CoreResult Envelope
  | [], env => .ok env
  | nonce :: nonces, env => do
      let (wrapped, keyId) ← L.rewrap aead nonce env.wrappedDek env.keyId
      rewrapAll nonces { env with wrappedDek := wrapped, keyId := keyId }

variable {aead L} {dek : Dek} {nonce : Nonce} {wrapped : Bytes} {keyId : String}

/-! ## Wrapped keys -/

theorem dekFromSlice_val (dek : Dek) : dekFromSlice dek.val = .ok dek := dif_pos dek.property

theorem wrapDek_eq_ok : L.wrapDek aead nonce dek = .ok wrapped ↔
    ∃ ciphertext, aead.sealWith L.master.val nonce wrapAad dek.val = some ciphertext ∧
      wrapped = nonce.val ++ ciphertext := by
  unfold wrapDek sealBytes
  cases aead.sealWith L.master.val nonce wrapAad dek.val with
  | none => simp
  | some ciphertext =>
      constructor
      · intro h
        cases h
        exact ⟨ciphertext, rfl, rfl⟩
      · rintro ⟨_, h, rfl⟩
        cases h
        rfl

/-- A blob that starts with the nonce is taken apart there. -/
theorem unwrapDataKey_append (nonce : Nonce) (ciphertext : Bytes) (keyId : String) :
    L.unwrapDataKey aead (nonce.val ++ ciphertext) keyId =
      match aead.openWith L.master.val nonce wrapAad ciphertext with
      | none => .error .keyUnwrap
      | some plaintext => dekFromSlice plaintext := by
  have hlength : ¬(nonce.val ++ ciphertext).length < nonceLen := by
    rw [List.length_append, nonce.property]
    exact Nat.not_lt.mpr (Nat.le_add_right _ _)
  have hnonce : (⟨(nonce.val ++ ciphertext).take nonceLen, List.length_take_of_le (not_lt.mp hlength)⟩ : Nonce) = nonce :=
    Subtype.ext (List.take_left' nonce.property)
  rw [unwrapDataKey, dif_neg hlength, hnonce, List.drop_left' nonce.property, openBytes]
  cases aead.openWith L.master.val nonce wrapAad ciphertext <;> rfl

theorem unwrapDataKey_wrapDek (h : L.wrapDek aead nonce dek = .ok wrapped) (keyId : String) :
    L.unwrapDataKey aead wrapped keyId = .ok dek := by
  obtain ⟨ciphertext, hseal, rfl⟩ := wrapDek_eq_ok.mp h
  rw [unwrapDataKey_append, aead.open_seal hseal]
  exact dekFromSlice_val dek

theorem generateDataKey_eq_ok {key : WrappedKey} {drawn : Dek × Nonce} (h : L.generateDataKey aead drawn = .ok key) :
    key.plaintext = drawn.1 ∧ key.keyId = L.keyId ∧ L.wrapDek aead drawn.2 drawn.1 = .ok key.wrapped := by
  obtain ⟨wrapped, hwrap, h⟩ := bind_eq_ok.mp h
  cases h
  exact ⟨rfl, rfl, hwrap⟩

/-- A blob that unwraps is wrapped again around the same key. -/
theorem rewrap_eq (h : L.unwrapDataKey aead wrapped keyId = .ok dek) {wrapped' : Bytes}
    (h' : L.wrapDek aead nonce dek = .ok wrapped') : L.rewrap aead nonce wrapped keyId = .ok (wrapped', L.keyId) := by
  rw [rewrap, h]
  change (L.wrapDek aead nonce dek >>= fun wrapped' => pure (wrapped', L.keyId)) = _
  rw [h']
  rfl

theorem rewrap_eq_ok {wrapped' : Bytes} {keyId' : String}
    (h : L.rewrap aead nonce wrapped keyId = .ok (wrapped', keyId')) :
    keyId' = L.keyId ∧ ∃ dek, L.unwrapDataKey aead wrapped keyId = .ok dek ∧ L.wrapDek aead nonce dek = .ok wrapped' := by
  obtain ⟨dek, hdek, h⟩ := bind_eq_ok.mp h
  obtain ⟨_, hwrap, h⟩ := bind_eq_ok.mp h
  cases h
  exact ⟨rfl, dek, hdek, hwrap⟩

/-- The envelope's key is this one, whatever it is wrapped in. -/
def Holds (aead : Aead) (L : LocalKeyWrapper) (dek : Dek) (env : Envelope) : Prop :=
  L.unwrapDataKey aead env.wrappedDek env.keyId = .ok dek ∧ env.keyId = L.keyId

theorem rewrapAll_holds {env : Envelope} (h : Holds aead L dek env)
    (hcan : ∀ nonce, (aead.sealWith L.master.val nonce wrapAad dek.val).isSome) (nonces : List Nonce) :
    ∃ env', L.rewrapAll aead nonces env = .ok env' ∧ Holds aead L dek env' ∧ env'.nonce = env.nonce ∧
      env'.ciphertext = env.ciphertext := by
  induction nonces generalizing env with
  | nil => exact ⟨env, rfl, h, rfl, rfl⟩
  | cons nonce nonces ih =>
      obtain ⟨ciphertext, hseal⟩ := Option.isSome_iff_exists.mp (hcan nonce)
      have hwrap : L.wrapDek aead nonce dek = .ok (nonce.val ++ ciphertext) := wrapDek_eq_ok.mpr ⟨ciphertext, hseal, rfl⟩
      have hrewrapped : Holds aead L dek { env with wrappedDek := nonce.val ++ ciphertext, keyId := L.keyId } :=
        ⟨unwrapDataKey_wrapDek hwrap _, rfl⟩
      obtain ⟨env', hall, hholds, hnonce, hciphertext⟩ := ih hrewrapped
      refine ⟨env', ?_, hholds, hnonce, hciphertext⟩
      rw [rewrapAll, rewrap_eq h.1 hwrap]
      exact hall

theorem sealEnvelope_holds {aad plaintext : Bytes} {drawn : Dek × Nonce} {env : Envelope}
    (h : sealEnvelope aead (L.wrapper aead) drawn nonce aad plaintext = .ok env) :
    Holds aead L drawn.1 env ∧ env.nonce = nonce ∧
      aead.sealWith drawn.1.val nonce aad plaintext = some env.ciphertext := by
  obtain ⟨key, hkey, h⟩ := bind_eq_ok.mp h
  obtain ⟨hplain, hid, hwrap⟩ := generateDataKey_eq_ok hkey
  obtain ⟨ciphertext, hseal, h⟩ := bind_eq_ok.mp h
  cases h
  refine ⟨⟨unwrapDataKey_wrapDek hwrap _, hid⟩, rfl, ?_⟩
  rw [hplain, sealBytes] at hseal
  split at hseal
  · cases hseal
  · rename_i hsealed
    cases hseal
    exact hsealed

theorem openEnvelope_of_holds {env : Envelope} {aad plaintext : Bytes} (h : Holds aead L dek env)
    (hseal : aead.sealWith dek.val env.nonce aad plaintext = some env.ciphertext) :
    openEnvelope aead (L.wrapper aead) env aad = .ok plaintext := by
  unfold openEnvelope
  change (L.unwrapDataKey aead env.wrappedDek env.keyId >>= _) = _
  rw [h.1]
  change openBytes aead dek env.nonce aad env.ciphertext = _
  rw [openBytes, aead.open_seal hseal]

/-! ## What is taken as a key -/

/-- Both a configured key and a wrapped one are bytes that are found or not, and then have the right length or not. -/
def takeKey : Option Bytes → CoreResult Dek
  | none => .error .keyUnwrap
  | some raw => dekFromSlice raw

theorem takeKey_eq_ok {found : Option Bytes} : takeKey found = .ok dek ↔ found = some dek.val := by
  cases found with
  | none => simp [takeKey]
  | some raw =>
      rw [takeKey, dekFromSlice, Option.some.injEq]
      split_ifs with hlength
      · rw [Except.ok.injEq, Subtype.ext_iff]
      · refine ⟨fun h => (by cases h), fun h => absurd ?_ hlength⟩
        rw [h]
        exact dek.property

theorem takeKey_eq_error {found : Option Bytes} {e : CoreError} : takeKey found = .error e ↔
    (∃ raw, found = some raw ∧ raw.length ≠ dekLen ∧ e = .keyLength dekLen raw.length) ∨
      found = none ∧ e = .keyUnwrap := by
  cases found with
  | none => simp [takeKey, Eq.comm (a := e)]
  | some raw =>
      rw [takeKey, dekFromSlice]
      split_ifs with hlength
      · simp [hlength]
      · simp [hlength, Eq.comm (a := e)]

theorem fromBase64_eq (B : Base64) (encoded keyId : String) : fromBase64 B encoded keyId =
    (takeKey (B.decode (trim encoded.toList))).map fun master => ⟨master, keyId⟩ := by
  rw [fromBase64]
  cases B.decode (trim encoded.toList) with
  | none => rfl
  | some raw =>
      rw [takeKey, dekFromSlice]
      dsimp only
      split_ifs <;> rfl

theorem fromBase64_surrounded (B : Base64) (master : Dek) (keyId : String) {before after : List Char}
    (hbefore : ∀ c ∈ before, isWhiteSpace c = true) (hafter : ∀ c ∈ after, isWhiteSpace c = true) :
    fromBase64 B (String.ofList (before ++ B.encode master.val ++ after)) keyId = .ok ⟨master, keyId⟩ := by
  rw [fromBase64_eq, String.toList_ofList, B.trim_encode _ hbefore hafter, B.decode_encode, takeKey_eq_ok.mpr rfl]
  rfl

/-- The wrapper's own key has sealed these bytes in the blob. -/
def Sealed (aead : Aead) (L : LocalKeyWrapper) (wrapped plaintext : Bytes) : Prop :=
  ∃ (nonce : Nonce) (ciphertext : Bytes), wrapped = nonce.val ++ ciphertext ∧
    aead.sealWith L.master.val nonce wrapAad plaintext = some ciphertext

theorem sealed_iff_wrapDek : L.Sealed aead wrapped dek.val ↔ ∃ nonce, L.wrapDek aead nonce dek = .ok wrapped := by
  simp only [wrapDek_eq_ok, Sealed, and_comm]

theorem unwrapDataKey_eq (hexact : aead.Exact) (wrapped : Bytes) (keyId : String) : ∃ found,
    L.unwrapDataKey aead wrapped keyId = takeKey found ∧ ∀ plaintext, found = some plaintext ↔
      L.Sealed aead wrapped plaintext := by
  by_cases hlength : wrapped.length < nonceLen
  · refine ⟨none, dif_pos hlength, fun plaintext => ⟨fun h => (by cases h), ?_⟩⟩
    rintro ⟨nonce, ciphertext, rfl, _⟩
    rw [List.length_append, nonce.property] at hlength
    exact absurd hlength (Nat.not_lt.mpr (Nat.le_add_right _ _))
  · obtain ⟨nonce, ciphertext, rfl⟩ : ∃ (nonce : Nonce) (ciphertext : Bytes), wrapped = nonce.val ++ ciphertext :=
      ⟨⟨wrapped.take nonceLen, List.length_take_of_le (not_lt.mp hlength)⟩, wrapped.drop nonceLen,
        (List.take_append_drop _ _).symm⟩
    refine ⟨aead.openWith L.master.val nonce wrapAad ciphertext, ?_, fun plaintext => ⟨fun h => ?_, ?_⟩⟩
    · rw [unwrapDataKey_append]
      cases aead.openWith L.master.val nonce wrapAad ciphertext <;> rfl
    · exact ⟨nonce, ciphertext, rfl, hexact h⟩
    · -- the nonce and what follows it are determined by the blob
      rintro ⟨nonce', ciphertext', h, hseal⟩
      obtain ⟨hnonce, rfl⟩ := List.append_inj h (nonce.property.trans nonce'.property.symm)
      rw [Subtype.ext hnonce]
      exact aead.open_seal hseal

end LocalKeyWrapper

/-- A value stays readable whatever number of re-wraps its key goes through. -/
theorem envelope_survives_rewraps (aead : Aead) (L : LocalKeyWrapper) (drawn : Dek × Nonce) (nonce : Nonce)
    (aad plaintext : Bytes) (env : Envelope)
    (hseal : sealEnvelope aead (L.wrapper aead) drawn nonce aad plaintext = .ok env)
    (hcan : ∀ nonce, (aead.sealWith L.master.val nonce wrapAad drawn.1.val).isSome) (nonces : List Nonce) :
    ∃ env', L.rewrapAll aead nonces env = .ok env' ∧ openEnvelope aead (L.wrapper aead) env' aad = .ok plaintext ∧
      env'.keyId = L.keyId ∧ env'.nonce = env.nonce ∧ env'.ciphertext = env.ciphertext := by
  obtain ⟨hholds, rfl, hsealed⟩ := LocalKeyWrapper.sealEnvelope_holds hseal
  obtain ⟨env', hall, hholds', hnonce, hciphertext⟩ := LocalKeyWrapper.rewrapAll_holds hholds hcan nonces
  refine ⟨env', hall, LocalKeyWrapper.openEnvelope_of_holds hholds' ?_, hholds'.2, hnonce, hciphertext⟩
  rw [hnonce, hciphertext]
  exact hsealed

/-- The key of the concrete node. -/
def demoWrapper : LocalKeyWrapper := ⟨⟨List.replicate 32 7, rfl⟩, "local"⟩

theorem envelope_survives_rewraps_twice : ∃ env env',
    sealEnvelope plainAead (demoWrapper.wrapper plainAead) (⟨List.replicate 32 1, rfl⟩, ⟨List.replicate 24 2, rfl⟩)
      ⟨List.replicate 24 3, rfl⟩ [4] [5, 6] = .ok env ∧
    demoWrapper.rewrapAll plainAead [⟨List.replicate 24 8, rfl⟩, ⟨List.replicate 24 9, rfl⟩] env = .ok env' ∧
    openEnvelope plainAead (demoWrapper.wrapper plainAead) env' [4] = .ok [5, 6] := by
  obtain ⟨env', hall, hopen, _⟩ := envelope_survives_rewraps plainAead demoWrapper
    (⟨List.replicate 32 1, rfl⟩, ⟨List.replicate 24 2, rfl⟩) ⟨List.replicate 24 3, rfl⟩ [4] [5, 6] _ rfl
    (fun _ => rfl) [⟨List.replicate 24 8, rfl⟩, ⟨List.replicate 24 9, rfl⟩]
  exact ⟨_, env', rfl, hall, hopen⟩

/-- A blob unwraps exactly when the wrapper's own key has wrapped a data key in it. One in which it has sealed something
else is refused for the length, and every other one as no wrapped key. -/
theorem unwrapDataKey_exact (aead : Aead) (hexact : aead.Exact) (L : LocalKeyWrapper) (wrapped : Bytes) (keyId : String) :
    (∀ dek, L.unwrapDataKey aead wrapped keyId = .ok dek ↔ ∃ nonce, L.wrapDek aead nonce dek = .ok wrapped) ∧
    ∀ e, L.unwrapDataKey aead wrapped keyId = .error e ↔
      (∃ plaintext, L.Sealed aead wrapped plaintext ∧ plaintext.length ≠ dekLen ∧
        e = .keyLength dekLen plaintext.length) ∨
      (∀ plaintext, ¬L.Sealed aead wrapped plaintext) ∧ e = .keyUnwrap := by
  obtain ⟨found, hunwrap, hfound⟩ := LocalKeyWrapper.unwrapDataKey_eq (L := L) hexact wrapped keyId
  rw [hunwrap]
  refine ⟨fun dek => ?_, fun e => ?_⟩
  · rw [LocalKeyWrapper.takeKey_eq_ok, hfound, LocalKeyWrapper.sealed_iff_wrapDek]
  · rw [LocalKeyWrapper.takeKey_eq_error]
    simp only [← hfound, ← Option.eq_none_iff_forall_ne_some, ne_eq]

theorem plainAead_exact : plainAead.Exact := by
  intro dek nonce aad ciphertext plaintext h
  change (if ciphertext.take dek.length = dek then some (ciphertext.drop dek.length) else none) = some plaintext at h
  split_ifs at h with hkey
  cases h
  change some (dek ++ ciphertext.drop dek.length) = some ciphertext
  rw [← congrArg (· ++ ciphertext.drop dek.length) hkey]
  exact congrArg some (List.take_append_drop _ _)

theorem unwrapDataKey_exact_wrapped : ∃ wrapped,
    demoWrapper.wrapDek plainAead ⟨List.replicate 24 2, rfl⟩ ⟨List.replicate 32 1, rfl⟩ = .ok wrapped ∧
      demoWrapper.unwrapDataKey plainAead wrapped "local" = .ok ⟨List.replicate 32 1, rfl⟩ :=
  ⟨_, rfl, ((unwrapDataKey_exact plainAead plainAead_exact demoWrapper _ "local").1 _).mpr
    ⟨⟨List.replicate 24 2, rfl⟩, rfl⟩⟩

end HyperionVault
