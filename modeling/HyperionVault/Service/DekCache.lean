import HyperionVault.Lib.Cache
import HyperionVault.Lib.Run
import HyperionVault.Service.Concrete

/-!
# The cache of data keys

`DekCache` of `cache.rs` and `open_version` of `service.rs` with it. A data key is kept under its wrapped form alone
for a limited time: whoever comes with the same wrapped key gets it without asking KMS, which would also have compared
the key id and the context. Instants and durations are in nanoseconds.

* `DekCache`, `DekCache.get`, `DekCache.put` : the cache; a full one loses its expired entries, or else an oldest one;
* `OpenCall`, `openVersionCached` : one call of `open_version`, with its clock readings;
* `Kms.Functional` : what KMS decrypts a wrapped key to depends on nothing else;
* `PutBy`, `cacheAfter_held` : every entry was put by an earlier call for the same wrapped key;
* `dek_cache_transparent` : sequences of calls; `interleaved_opens_alike` : any order of their looks and puts.
-/

namespace HyperionVault
open Lib

def maxEntries : Nat := 16384

def nanosPerSec : Nat := 1000000000

structure DekCache where
  ttl : Nat
  /-- When each key was stored, and the key. -/
  map : Table Bytes (Nat × Bytes)

namespace DekCache

def new (ttlSecs : Nat) : DekCache := ⟨ttlSecs * nanosPerSec, .empty⟩

def get (cache : DekCache) (wrapped : Bytes) (now : Nat) : Option Bytes × DekCache :=
  if cache.ttl = 0 then (none, cache)
  else
    match cache.map.get wrapped with
    | some (stored, dek) =>
        if now - stored < cache.ttl then (some dek, cache)
        else (none, { cache with map := cache.map.remove wrapped })
    | none => (none, cache)

/-- A full map loses its expired entries. -/
def dropExpired (ttl now : Nat) (map : Table Bytes (Nat × Bytes)) : Table Bytes (Nat × Bytes) :=
  if maxEntries ≤ map.rows.length then map.retain fun row => now - row.2.1 < ttl else map

/-- A map that is still full loses an oldest entry: the first one in the order in which its rows come. -/
def evictOldest (order : HashOrder (Bytes × Nat × Bytes)) (map : Table Bytes (Nat × Bytes)) :
    Table Bytes (Nat × Bytes) :=
  if maxEntries ≤ map.rows.length then
    match minByKey (fun row => row.2.1) (order.list map.rows) with
    | some oldest => map.remove oldest.1
    | none => map
  else map

def put (cache : DekCache) (order : HashOrder (Bytes × Nat × Bytes)) (wrapped dek : Bytes) (now : Nat) : DekCache :=
  if cache.ttl = 0 then cache
  else { cache with map := (evictOldest order (dropExpired cache.ttl now cache.map)).insert wrapped (now, dek) }

end DekCache

/-- One call of `open_version`. -/
structure OpenCall where
  name : String
  version : Int32
  record : VersionRecord
  /-- The clock at the look into the cache. -/
  getAt : Nat
  /-- The clock after the answer of KMS. -/
  putAt : Nat
  order : HashOrder (Bytes × Nat × Bytes)
  /-- The message of a KMS that is not available. -/
  outage : Option String

section Calls
variable (A : AppState)

/-- What KMS answers to the call. -/
def OpenCall.decrypt (call : OpenCall) : Except String Bytes :=
  match call.outage with
  | some message => .error message
  | none => A.kms.decryptDataKey call.record.wrappedDek call.record.kmsKeyId (kmsContext call.name call.version)

def OpenCall.openWith (call : OpenCall) (hnonce : call.record.nonce.length = nonceLen) (dek : Bytes) :
    ApiResult Bytes :=
  match A.aead.openWith dek ⟨call.record.nonce, hnonce⟩ (aadFor call.name call.version) call.record.ciphertext with
  | none => .error (.internal "decryption failed")
  | some plaintext => .ok plaintext

def openVersionCached (cache : DekCache) (call : OpenCall) : ApiResult Bytes × DekCache :=
  if call.record.aad ≠ aadFor call.name call.version then
    (.error (.internal "stored aad does not match secret identity (possible tampering)"), cache)
  else if hnonce : call.record.nonce.length = nonceLen then
    match cache.get call.record.wrappedDek call.getAt with
    | (some dek, cache) => (call.openWith A hnonce dek, cache)
    | (none, cache) =>
        match call.decrypt A with
        | .error message => (.error (.internal message), cache)
        | .ok dek => (call.openWith A hnonce dek, cache.put call.order call.record.wrappedDek dek call.putAt)
  else (.error (.internal "stored nonce has invalid length"), cache)

/-- The key that the call puts into the cache, if it has to ask KMS. -/
def OpenCall.puts (call : OpenCall) (cache : DekCache) : Option Bytes :=
  if call.record.aad = aadFor call.name call.version ∧ call.record.nonce.length = nonceLen ∧
      (cache.get call.record.wrappedDek call.getAt).1 = none then
    (call.decrypt A).toOption
  else none

/-- The cache after a sequence of calls. -/
def cacheAfter (ttlSecs : Nat) (calls : List OpenCall) : DekCache :=
  run (fun cache call => (openVersionCached A cache call).2) (.new ttlSecs) calls

end Calls

/-! ## One look and one put -/

section Cache
variable {cache : DekCache} {wrapped dek : Bytes} {now : Nat} {order : HashOrder (Bytes × Nat × Bytes)}
  {map : Table Bytes (Nat × Bytes)} {P : Bytes → Nat × Bytes → Prop}

/-- A hit is an entry that has not expired. -/
theorem get_eq_some (h : (cache.get wrapped now).1 = some dek) :
    ∃ stored, cache.map.get wrapped = some (stored, dek) ∧ now - stored < cache.ttl := by
  unfold DekCache.get at h
  split_ifs at h
  cases hentry : cache.map.get wrapped with
  | none => simp [hentry] at h
  | some entry =>
      obtain ⟨stored, dek'⟩ := entry
      simp only [hentry] at h
      split_ifs at h with hfresh
      cases h
      exact ⟨stored, rfl, hfresh⟩

theorem get_cases (cache : DekCache) (wrapped : Bytes) (now : Nat) :
    (cache.get wrapped now).2 = cache ∨ (cache.get wrapped now).2 = { cache with map := cache.map.remove wrapped } := by
  unfold DekCache.get
  split_ifs
  · exact Or.inl rfl
  · cases cache.map.get wrapped with
    | none => exact Or.inl rfl
    | some entry =>
        dsimp only
        split_ifs
        · exact Or.inl rfl
        · exact Or.inr rfl

theorem evictOldest_cases (order : HashOrder (Bytes × Nat × Bytes)) (map : Table Bytes (Nat × Bytes)) :
    (map.rows.length < maxEntries ∧ DekCache.evictOldest order map = map) ∨
    ∃ oldest ∈ map.rows, (∀ row ∈ map.rows, oldest.2.1 ≤ row.2.1) ∧
      DekCache.evictOldest order map = map.remove oldest.1 := by
  unfold DekCache.evictOldest
  split_ifs with hfull
  · refine Or.inr ?_
    have hmem : ∀ row, row ∈ order.list map.rows ↔ row ∈ map.rows := fun row => (order.perm map.rows).mem_iff
    cases hmin : minByKey (fun row => row.2.1) (order.list map.rows) with
    | none =>
        -- a full map has rows
        have hempty := (order.perm map.rows).length_eq
        rw [minByKey_eq_none hmin] at hempty
        exact absurd hfull (by rw [← hempty]; decide)
    | some oldest =>
        refine ⟨oldest, (hmem _).mp (mem_of_minByKey hmin), fun row hrow => ?_, rfl⟩
        have hle := minByKey_le hmin ((hmem row).mpr hrow)
        exact hle
  · exact Or.inl ⟨not_le.mp hfull, rfl⟩

theorem ttl_get (cache : DekCache) (wrapped : Bytes) (now : Nat) : (cache.get wrapped now).2.ttl = cache.ttl := by
  rcases get_cases cache wrapped now with heq | heq <;> rw [heq]

theorem ttl_put (cache : DekCache) (order : HashOrder (Bytes × Nat × Bytes)) (wrapped dek : Bytes) (now : Nat) :
    (cache.put order wrapped dek now).ttl = cache.ttl := by
  unfold DekCache.put
  split_ifs <;> rfl

/-! What is true of the entries stays true, and there are never too many. -/

theorem rowsHold_get (h : cache.map.RowsHold P) (wrapped : Bytes) (now : Nat) :
    (cache.get wrapped now).2.map.RowsHold P := by
  rcases get_cases cache wrapped now with heq | heq <;> rw [heq]
  · exact h
  · exact h.remove wrapped

theorem rowsHold_put (h : cache.map.RowsHold P) (hput : P wrapped (now, dek)) :
    (cache.put order wrapped dek now).map.RowsHold P := by
  have hdrop : (DekCache.dropExpired cache.ttl now cache.map).RowsHold P := by
    unfold DekCache.dropExpired
    split_ifs
    · exact h.retain _
    · exact h
  unfold DekCache.put
  split_ifs
  · exact h
  · refine Table.RowsHold.insert ?_ hput
    rcases evictOldest_cases order (DekCache.dropExpired cache.ttl now cache.map) with ⟨_, heq⟩ | ⟨_, _, _, heq⟩ <;>
      rw [heq]
    · exact hdrop
    · exact hdrop.remove _

theorem length_get_le (h : cache.map.rows.length ≤ maxEntries) (wrapped : Bytes) (now : Nat) :
    (cache.get wrapped now).2.map.rows.length ≤ maxEntries := by
  rcases get_cases cache wrapped now with heq | heq <;> rw [heq]
  · exact h
  · exact (Table.length_remove_le _ _).trans h

theorem length_put_le (h : cache.map.rows.length ≤ maxEntries) :
    (cache.put order wrapped dek now).map.rows.length ≤ maxEntries := by
  have hdrop : (DekCache.dropExpired cache.ttl now cache.map).rows.length ≤ maxEntries := by
    unfold DekCache.dropExpired
    split_ifs
    · exact (Table.length_retain_le _ _).trans h
    · exact h
  have hevict : (DekCache.evictOldest order (DekCache.dropExpired cache.ttl now cache.map)).rows.length < maxEntries := by
    rcases evictOldest_cases order (DekCache.dropExpired cache.ttl now cache.map) with ⟨hlt, heq⟩ | ⟨_, hmem, _, heq⟩ <;>
      rw [heq]
    · exact hlt
    · exact (Table.length_remove_lt hmem).trans_le hdrop
  unfold DekCache.put
  split_ifs
  · exact h
  · exact (Table.length_insert_le _ _ _).trans hevict

end Cache

/-! ## One call -/

/-- The key that a wrapped one is decrypted to depends neither on the key id nor on the context. -/
def Kms.Functional (kms : Kms) : Prop := ∀ {wrapped keyId keyId' context context' dek dek'},
  kms.decryptDataKey wrapped keyId context = .ok dek → kms.decryptDataKey wrapped keyId' context' = .ok dek' → dek = dek'

/-- KMS decrypts the wrapped key to this one, for some key id and context. -/
def Decrypts (A : AppState) (wrapped : Bytes) (dek : Bytes) : Prop :=
  ∃ keyId context, A.kms.decryptDataKey wrapped keyId context = .ok dek

section Call
variable {A : AppState} {cache : DekCache} {call : OpenCall} {dek plaintext : Bytes}

theorem decrypts_of_decrypt (h : call.decrypt A = .ok dek) : Decrypts A call.record.wrappedDek dek := by
  unfold OpenCall.decrypt at h
  split at h
  · cases h
  · exact ⟨_, _, h⟩

theorem decrypt_of_puts (h : call.puts A cache = some dek) : call.decrypt A = .ok dek := by
  unfold OpenCall.puts at h
  split_ifs at h
  cases hdec : call.decrypt A with
  | error message => rw [hdec] at h; cases h
  | ok key => rw [hdec] at h; cases h; rfl

/-- A call looks into the cache, and puts the key there that it has got from KMS. -/
theorem openVersionCached_cache (A : AppState) (cache : DekCache) (call : OpenCall) :
    (openVersionCached A cache call).2 = cache ∨
    (openVersionCached A cache call).2 = (cache.get call.record.wrappedDek call.getAt).2 ∨
    ∃ dek, call.puts A cache = some dek ∧ (openVersionCached A cache call).2 =
      (cache.get call.record.wrappedDek call.getAt).2.put call.order call.record.wrappedDek dek call.putAt := by
  unfold openVersionCached
  by_cases haad : call.record.aad = aadFor call.name call.version
  · by_cases hnonce : call.record.nonce.length = nonceLen
    · rw [if_neg (not_not.mpr haad), dif_pos hnonce]
      rcases hget : cache.get call.record.wrappedDek call.getAt with ⟨found, cache'⟩
      refine Or.inr ?_
      cases found with
      | some dek => exact Or.inl rfl
      | none =>
          cases hdec : call.decrypt A with
          | error message => exact Or.inl rfl
          | ok dek =>
              have hputs : call.puts A cache = some dek := by
                rw [OpenCall.puts, if_pos ⟨haad, hnonce, by rw [hget]⟩, hdec]
                rfl
              exact Or.inr ⟨dek, hputs, rfl⟩
    · rw [if_neg (not_not.mpr haad), dif_neg hnonce]
      exact Or.inl rfl
  · rw [if_pos haad]
    exact Or.inl rfl

/-- A call that opens the record without a cache opens it alike with a cache of keys that KMS has decrypted. -/
theorem openVersionCached_alike (hkms : A.kms.Functional)
    (hheld : cache.map.RowsHold fun wrapped entry => Decrypts A wrapped entry.2) (houtage : call.outage = none)
    (hopen : openVersion A call.name call.version call.record = .ok plaintext) :
    (openVersionCached A cache call).1 = .ok plaintext := by
  unfold openVersion at hopen
  split_ifs at hopen with haad hnonce
  have hask : call.decrypt A = A.kms.decryptDataKey call.record.wrappedDek call.record.kmsKeyId
      (kmsContext call.name call.version) := by
    rw [OpenCall.decrypt, houtage]
  cases hdec : A.kms.decryptDataKey call.record.wrappedDek call.record.kmsKeyId
      (kmsContext call.name call.version) with
  | error message => rw [hdec] at hopen; cases hopen
  | ok dek =>
      have hwith : call.openWith A hnonce dek = .ok plaintext := by
        rw [hdec] at hopen
        exact hopen
      rw [openVersionCached, if_neg haad, dif_pos hnonce]
      rcases hget : cache.get call.record.wrappedDek call.getAt with ⟨found, cache'⟩
      cases found with
      | none =>
          rw [hask, hdec]
          exact hwith
      | some found =>
          -- the key in the cache is the one that KMS would have answered with
          obtain ⟨stored, hentry, _⟩ := get_eq_some (by rw [hget])
          obtain ⟨keyId, context, hfound⟩ := hheld _ _ hentry
          cases hkms hdec hfound
          exact hwith

end Call

/-! ## Sequences of calls -/

section Calls
variable (A : AppState) (ttlSecs : Nat)

/-- The entry was put by one of the calls, for this wrapped key. -/
def PutBy (calls : List OpenCall) (wrapped : Bytes) (entry : Nat × Bytes) : Prop :=
  ∃ before earlier between, calls = before ++ earlier :: between ∧ earlier.record.wrappedDek = wrapped ∧
    earlier.putAt = entry.1 ∧ earlier.puts A (cacheAfter A ttlSecs before) = some entry.2

variable {A ttlSecs}

theorem cacheAfter_snoc (calls : List OpenCall) (call : OpenCall) :
    cacheAfter A ttlSecs (calls ++ [call]) = (openVersionCached A (cacheAfter A ttlSecs calls) call).2 :=
  run_append _ _ _ _

theorem PutBy.snoc {calls : List OpenCall} {wrapped : Bytes} {entry : Nat × Bytes}
    (h : PutBy A ttlSecs calls wrapped entry) (call : OpenCall) : PutBy A ttlSecs (calls ++ [call]) wrapped entry := by
  obtain ⟨before, earlier, between, rfl, hrest⟩ := h
  exact ⟨before, earlier, between ++ [call], by simp, hrest⟩

/-- Every entry was put by a call for its wrapped key. -/
theorem cacheAfter_held (calls : List OpenCall) :
    (cacheAfter A ttlSecs calls).map.RowsHold (PutBy A ttlSecs calls) := by
  induction calls using List.reverseRecOn with
  | nil => exact Table.rowsHold_empty
  | append_singleton calls call ih =>
      have hlater := ih.mono fun _ _ h => h.snoc call
      rw [cacheAfter_snoc]
      rcases openVersionCached_cache A (cacheAfter A ttlSecs calls) call with heq | heq | ⟨dek, hputs, heq⟩ <;> rw [heq]
      · exact hlater
      · exact rowsHold_get hlater _ _
      · exact rowsHold_put (rowsHold_get hlater _ _) ⟨calls, call, [], rfl, rfl, rfl, hputs⟩

theorem length_cacheAfter_le (calls : List OpenCall) :
    (cacheAfter A ttlSecs calls).map.rows.length ≤ maxEntries := by
  refine run_inv (I := fun cache : DekCache => cache.map.rows.length ≤ maxEntries) (fun cache call h => ?_)
    (Nat.zero_le _) calls
  rcases openVersionCached_cache A cache call with heq | heq | ⟨dek, _, heq⟩ <;> rw [heq]
  · exact h
  · exact length_get_le h _ _
  · exact length_put_le (length_get_le h _ _)

theorem ttl_cacheAfter (calls : List OpenCall) : (cacheAfter A ttlSecs calls).ttl = ttlSecs * nanosPerSec := by
  refine run_inv (I := fun cache : DekCache => cache.ttl = ttlSecs * nanosPerSec) (fun cache call h => ?_) rfl calls
  rcases openVersionCached_cache A cache call with heq | heq | ⟨dek, _, heq⟩ <;> rw [heq]
  · exact h
  · exact (ttl_get _ _ _).trans h
  · exact (ttl_put _ _ _ _ _).trans ((ttl_get _ _ _).trans h)

end Calls

/-- The clock readings of the calls, in their order. -/
def instants (calls : List OpenCall) : List Nat := calls.flatMap fun call => [call.getAt, call.putAt]

theorem putAt_le_of_instants {calls before between : List OpenCall} {earlier call : OpenCall}
    (h : (instants (calls ++ [call])).Pairwise (· ≤ ·)) (hcalls : calls = before ++ earlier :: between) :
    earlier.putAt ≤ call.getAt := by
  rw [instants, List.flatMap_append] at h
  refine (List.pairwise_append.mp h).2.2 _ ?_ _ (by simp)
  rw [hcalls]
  simp

/-- After any sequence of calls, a call that opens its record without the cache opens it alike with it; the key that
it finds in the cache was put there by an earlier call for the same wrapped key, less than the time to live ago; and
the cache never has too many entries. -/
theorem dek_cache_transparent (A : AppState) (hkms : A.kms.Functional) (ttlSecs : Nat) (calls : List OpenCall)
    (call : OpenCall) (hinstants : (instants (calls ++ [call])).Pairwise (· ≤ ·)) :
    (call.outage = none → ∀ plaintext, openVersion A call.name call.version call.record = .ok plaintext →
      (openVersionCached A (cacheAfter A ttlSecs calls) call).1 = .ok plaintext) ∧
    (∀ dek, ((cacheAfter A ttlSecs calls).get call.record.wrappedDek call.getAt).1 = some dek →
      ∃ before earlier between, calls = before ++ earlier :: between ∧
        earlier.record.wrappedDek = call.record.wrappedDek ∧
        earlier.puts A (cacheAfter A ttlSecs before) = some dek ∧
        earlier.putAt ≤ call.getAt ∧ call.getAt - earlier.putAt < ttlSecs * nanosPerSec) ∧
    (cacheAfter A ttlSecs calls).map.rows.length ≤ maxEntries ∧
    (cacheAfter A ttlSecs (calls ++ [call])).map.rows.length ≤ maxEntries := by
  refine ⟨fun houtage plaintext hopen => ?_, fun dek hhit => ?_, length_cacheAfter_le _, length_cacheAfter_le _⟩
  · refine openVersionCached_alike hkms ((cacheAfter_held calls).mono fun wrapped entry hput => ?_) houtage hopen
    obtain ⟨_, earlier, _, _, rfl, _, hputs⟩ := hput
    exact decrypts_of_decrypt (decrypt_of_puts hputs)
  · obtain ⟨stored, hentry, hfresh⟩ := get_eq_some hhit
    obtain ⟨before, earlier, between, hcalls, hwrapped, rfl, hputs⟩ := cacheAfter_held calls _ _ hentry
    rw [ttl_cacheAfter] at hfresh
    exact ⟨before, earlier, between, hcalls, hwrapped, hputs, putAt_le_of_instants hinstants hcalls, hfresh⟩

/-! A record that is opened twice within the time to live. -/

def openCallAt (getAt : Nat) : OpenCall where
  name := "a"
  version := 1
  record := (sealingOf (nodeWith jsonCodec) "a" 1 (.value "old") 0 1).record
  getAt := getAt
  putAt := getAt + 1
  order := ⟨id, List.Perm.refl⟩
  outage := none

theorem plainKms_functional : plainKms.Functional := by
  intro wrapped keyId keyId' context context' dek dek' h h'
  cases h
  cases h'
  rfl

theorem second_open_hits :
    ((cacheAfter (nodeWith jsonCodec) 300 [openCallAt 0]).get (List.replicate 32 1) 10).1 =
      some (List.replicate 32 1) ∧
    openVersion (nodeWith jsonCodec) "a" 1 (openCallAt 10).record = .ok (utf8 "old") ∧
    (openVersionCached (nodeWith jsonCodec) (cacheAfter (nodeWith jsonCodec) 300 [openCallAt 0]) (openCallAt 10)).1 =
      .ok (utf8 "old") := by
  have hopen : openVersion (nodeWith jsonCodec) "a" 1 (openCallAt 10).record = .ok (utf8 "old") := by decide
  refine ⟨by decide, hopen, ?_⟩
  exact (dek_cache_transparent (nodeWith jsonCodec) plainKms_functional 300 [openCallAt 0] (openCallAt 10) (by decide)).1
    rfl _ hopen

/-! ## Calls that overlap -/

/-- What a call does with the cache; another call may come in between. -/
inductive CacheOp where
  | get (wrapped : Bytes) (now : Nat)
  | put (order : HashOrder (Bytes × Nat × Bytes)) (wrapped dek : Bytes) (now : Nat)

def DekCache.step (cache : DekCache) : CacheOp → DekCache
  | .get wrapped now => (cache.get wrapped now).2
  | .put order wrapped dek now => cache.put order wrapped dek now

/-- The cache is not too large, and its keys are those that KMS has decrypted. -/
structure DekCache.Sound (A : AppState) (cache : DekCache) : Prop where
  bounded : cache.map.rows.length ≤ maxEntries
  decrypted : cache.map.RowsHold fun wrapped entry => Decrypts A wrapped entry.2

theorem DekCache.Sound.step {A : AppState} {cache : DekCache} {op : CacheOp} (h : cache.Sound A)
    (hop : ∀ order wrapped dek now, op = .put order wrapped dek now → Decrypts A wrapped dek) :
    (cache.step op).Sound A := by
  cases op with
  | get wrapped now => exact ⟨length_get_le h.bounded _ _, rowsHold_get h.decrypted _ _⟩
  | put order wrapped dek now => exact ⟨length_put_le h.bounded, rowsHold_put h.decrypted (hop _ _ _ _ rfl)⟩

/-- In whatever order the calls look into the cache and put keys there that KMS has decrypted, the cache stays bounded
and a call that opens its record without it opens it alike with it. -/
theorem interleaved_opens_alike {A : AppState} (hkms : A.kms.Functional) (ttlSecs : Nat) {ops : List CacheOp}
    (hops : ∀ order wrapped dek now, CacheOp.put order wrapped dek now ∈ ops → Decrypts A wrapped dek) :
    (run DekCache.step (.new ttlSecs) ops).map.rows.length ≤ maxEntries ∧
    ∀ (call : OpenCall) (plaintext : Bytes), call.outage = none →
      openVersion A call.name call.version call.record = .ok plaintext →
      (openVersionCached A (run DekCache.step (.new ttlSecs) ops) call).1 = .ok plaintext := by
  have hnew : (DekCache.new ttlSecs).Sound A := ⟨Nat.zero_le _, Table.rowsHold_empty⟩
  have hsound : (run DekCache.step (.new ttlSecs) ops).Sound A :=
    run_inv_of_allSteps (I := DekCache.Sound A) (fun _ _ h hop => h.step hop) hnew
      (allSteps_of_forall fun op hmem order wrapped dek now heq => hops order wrapped dek now (heq ▸ hmem))
  exact ⟨hsound.bounded, fun call plaintext houtage hopen =>
    openVersionCached_alike hkms hsound.decrypted houtage hopen⟩

end HyperionVault
