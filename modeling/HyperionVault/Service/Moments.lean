import HyperionVault.Lib.Scripted
import HyperionVault.Service.Subjects
import HyperionVault.Service.Unwrapping

/-!
# Reads among other calls

`get_secret` looks at the store once: its answer is that of one moment while it was under way, whatever calls write
before and after it. A batch looks once for each of its names.

* `readNow` : the answer to a read of one state of the store;
* `getSecret_result`, `getSecrets_result` : a read answers as one of the states that it has seen;
* `ClientCall`, `clientServe` : reads and the calls of the service, interleaved;
* `Shows` : what a read should say of a world, `shows_readNow` : what it says;
* `reads_are_momentary` : every read of every interleaving.
-/

namespace HyperionVault
open Lib

section Reads
variable (A : AppState)

/-- The value of a secret in the tables as they are. -/
def readNow (name : String) (t : Tables) : ApiResult SecretValue :=
  match RedbStore.currentVersion A.codec name t with
  | .error e => .error (.ofStore e)
  | .ok none => .error .notFound
  | .ok (some (secret, version)) => readVersion A name secret version

end Reads

/-- A batch gives an answer for each of its names, each at a moment of its own; `P` says which answer a name gets in a
world. Names that are not found are left out. -/
inductive BatchAnswers (P : String → World → ApiResult SecretValue → Prop) :
    List String → List World → List SecretValue → Prop
  | nil : BatchAnswers P [] [] []
  | value {name : String} {names : List String} {w : World} {moments : List World} {value : SecretValue}
      {values : List SecretValue} (hname : isValidSecretName name = true) (h : P name w (.ok value))
      (rest : BatchAnswers P names moments values) : BatchAnswers P (name :: names) (w :: moments) (value :: values)
  | missing {name : String} {names : List String} {w : World} {moments : List World} {values : List SecretValue}
      (h : isValidSecretName name = true → P name w (.error .notFound))
      (rest : BatchAnswers P names moments values) : BatchAnswers P (name :: names) (w :: moments) values

theorem BatchAnswers.imp {P Q : String → World → ApiResult SecretValue → Prop} {names : List String}
    {moments : List World} {values : List SecretValue} (h : BatchAnswers P names moments values)
    (hPQ : ∀ name, ∀ w ∈ moments, ∀ r, P name w r → Q name w r) : BatchAnswers Q names moments values := by
  induction h with
  | nil => exact .nil
  | value hname h rest ih =>
      exact .value hname (hPQ _ _ List.mem_cons_self _ h) (ih fun name w hw => hPQ name w (List.mem_cons_of_mem _ hw))
  | missing h rest ih =>
      exact .missing (fun hname => hPQ _ _ List.mem_cons_self _ (h hname))
        (ih fun name w hw => hPQ name w (List.mem_cons_of_mem _ hw))

/-! ## What a read has seen -/

section Results
variable {A : AppState} {seen : List World} {α β ε : Type}

/-- A part of a call sees some of the states that the call sees. -/
theorem bind_result {c : Call α} {f : α → Call β} {r : ApiResult β} (h : (c >>= f).run.result seen = some r) :
    ∃ first ⊆ seen, ∃ rest ⊆ seen,
      (∃ e, c.run.result first = some (.error e) ∧ r = .error e) ∨
        ∃ a, c.run.result first = some (.ok a) ∧ (f a).run.result rest = some r := by
  rcases Proc.result_bind_ok h with ⟨e, first, rest, rfl, hfirst, hr⟩ | ⟨a, first, rest, rfl, hfirst, hrest⟩
  · exact ⟨first, List.subset_append_left _ _, rest, List.subset_append_right _ _, Or.inl ⟨e, hfirst, hr⟩⟩
  · exact ⟨first, List.subset_append_left _ _, rest, List.subset_append_right _ _, Or.inr ⟨a, hfirst, hrest⟩⟩

theorem ofExcept_bind_result {toApi : ε → ApiError} {x : Except ε α} {f : α → Call β} {r : ApiResult β}
    (h : (Call.ofExcept toApi x >>= f).run.result seen = some r) :
    (∃ e, x = .error e ∧ r = .error (toApi e)) ∨ ∃ a, x = .ok a ∧ (f a).run.result seen = some r := by
  cases x with
  | error e =>
      cases h
      exact Or.inl ⟨e, rfl, rfl⟩
  | ok a => exact Or.inr ⟨a, rfl, h⟩

/-- A read sees the store as it is in one state. -/
theorem read_bind_result {query : Tables → StoreResult α} {f : α → Call β} {r : ApiResult β}
    (h : (Call.read query >>= f).run.result seen = some r) :
    ∃ w ∈ seen, ∃ rest ⊆ seen, (∃ e, query w.tables = .error e ∧ r = .error (.ofStore e)) ∨
      ∃ a, query w.tables = .ok a ∧ (f a).run.result rest = some r := by
  cases seen with
  | nil => cases h
  | cons w seen =>
      refine ⟨w, List.mem_cons_self, seen, List.subset_cons_self _ _, ?_⟩
      have hquery : (Call.ofExcept .ofStore (query w.tables) >>= f).run.result seen = some r := h
      exact ofExcept_bind_result hquery

/-- An audit entry does not end a call. -/
theorem audit_bind_result {actor clientIp : Option String} {action : String} {secretName : Option String}
    {outcome : String} {d : Draws} {f : Unit → Call α} {r : ApiResult α}
    (h : (audit A actor clientIp action secretName outcome d >>= f).run.result seen = some r) :
    ∃ w ∈ seen, ∃ rest ⊆ seen, (f ()).run.result rest = some r := by
  cases seen with
  | nil => cases h
  | cons w seen => exact ⟨w, List.mem_cons_self, seen, List.subset_cons_self _ _, h⟩

variable {name clientIp : String} {d : Draws}

/-- A read of a name that a secret may have answers as the store does in one of the states it has seen. -/
theorem getSecret_result {r : ApiResult SecretValue} (hname : isValidSecretName name = true)
    (h : (getSecret A name clientIp d).run.result seen = some r) : ∃ w ∈ seen, r = readNow A name w.tables := by
  have hknown : knownName name = .ok () := if_pos hname
  rw [getSecret, Call.ensure, hknown] at h
  obtain ⟨w, hw, rest, _, ⟨e, hquery, rfl⟩ | ⟨found, hquery, h⟩⟩ := read_bind_result h
  · exact ⟨w, hw, by rw [readNow, hquery]⟩
  · refine ⟨w, hw, ?_⟩
    rw [readNow, hquery]
    cases found with
    | none =>
        obtain ⟨_, _, _, _, h⟩ := audit_bind_result h
        cases h
        rfl
    | some pair =>
        obtain ⟨secret, version⟩ := pair
        rcases ofExcept_bind_result h with ⟨e, hread, rfl⟩ | ⟨value, hread, h⟩
        · exact hread.symm
        · obtain ⟨_, _, _, _, h⟩ := audit_bind_result h
          cases h
          exact hread.symm

theorem getSecret_result_invalid {r : ApiResult SecretValue} (hname : isValidSecretName name = false)
    (h : (getSecret A name clientIp d).run.result seen = some r) : r = .error .notFound := by
  have hknown : knownName name = .error .notFound := if_neg (by rw [hname]; exact Bool.false_ne_true)
  rw [getSecret, Call.ensure, hknown] at h
  cases h
  rfl

/-- A batch answers for each of its names as the store does in one of the states it has seen. -/
theorem getEach_result {names : List String} {values : List SecretValue}
    (h : (getEach A clientIp d names).run.result seen = some (.ok values)) :
    ∃ moments ⊆ seen, BatchAnswers (fun name w r => r = readNow A name w.tables) names moments values := by
  induction names generalizing seen values with
  | nil =>
      cases h
      exact ⟨[], List.nil_subset _, .nil⟩
  | cons name names ih =>
      rw [getEach] at h
      split_ifs at h with hname
      · obtain ⟨w, hw, rest, hsub, ⟨e, _, hr⟩ | ⟨found, hquery, h⟩⟩ := read_bind_result h
        · cases hr
        · cases found with
          | none =>
              have hnone : readNow A name w.tables = .error .notFound := by rw [readNow, hquery]
              obtain ⟨_, _, rest', hsub', h⟩ := audit_bind_result h
              obtain ⟨moments, hmoments, hanswers⟩ := ih h
              refine ⟨w :: moments, List.cons_subset.mpr ⟨hw, ?_⟩, .missing (fun _ => hnone.symm) hanswers⟩
              exact List.Subset.trans hmoments (List.Subset.trans hsub' hsub)
          | some pair =>
              obtain ⟨secret, version⟩ := pair
              rcases ofExcept_bind_result h with ⟨e, _, hr⟩ | ⟨value, hread, h⟩
              · cases hr
              · have hvalue : readNow A name w.tables = .ok value := by
                  rw [readNow, hquery]
                  exact hread
                obtain ⟨_, _, rest', hsub', h⟩ := audit_bind_result h
                obtain ⟨first, hfirst, _, _, ⟨e, _, hr⟩ | ⟨values', heach, hr⟩⟩ := bind_result h
                · cases hr
                · cases hr
                  obtain ⟨moments, hmoments, hanswers⟩ := ih heach
                  refine ⟨w :: moments, List.cons_subset.mpr ⟨hw, ?_⟩, .value hname hvalue.symm hanswers⟩
                  exact List.Subset.trans hmoments (List.Subset.trans hfirst (List.Subset.trans hsub' hsub))
      · obtain ⟨w, hw, rest, hsub, h⟩ := audit_bind_result h
        obtain ⟨moments, hmoments, hanswers⟩ := ih h
        exact ⟨w :: moments, List.cons_subset.mpr ⟨hw, List.Subset.trans hmoments hsub⟩,
          .missing (fun hvalid => absurd hvalid hname) hanswers⟩

theorem getSecrets_result {names : List String} {values : List SecretValue}
    (h : (getSecrets A names clientIp d).run.result seen = some (.ok values)) :
    ∃ moments ⊆ seen, BatchAnswers (fun name w r => r = readNow A name w.tables) names moments values := by
  rw [getSecrets, Call.ensure] at h
  rcases ofExcept_bind_result h with ⟨e, _, hr⟩ | ⟨_, _, h⟩
  · cases hr
  · exact getEach_result h

end Results

/-! ## Reads and writes together -/

inductive ClientCall where
  | service (call : ServiceCall)
  | get (name clientIp : String) (draws : Draws)
  | batch (names : List String) (clientIp : String) (draws : Draws)

inductive ClientReply where
  | service (reply : Reply)
  | value (value : SecretValue)
  | values (values : List SecretValue)

def ClientCall.body (A : AppState) : ClientCall → Proc World Op (ApiResult ClientReply)
  | .service call => (call.body A).bind fun reply => .ret (reply.map .service)
  | .get name clientIp d => (getSecret A name clientIp d).run.bind fun r => .ret (r.map .value)
  | .batch names clientIp d => (getSecrets A names clientIp d).run.bind fun r => .ret (r.map .values)

/-- The running service with its readers: any number of calls, interleaved by operations. -/
abbrev clientServe (A : AppState) : System World Op (ApiResult ClientReply) ClientCall → SystemEvent ClientCall →
    System World Op (ApiResult ClientReply) ClientCall :=
  System.step (World.perform A) (ClientCall.body A)

/-- What a read of a name should answer in this world: nothing is stored, or the row of the current version stands for
what was sealed under its number since the secret was created. -/
def Shows (A : AppState) (name : String) (w : World) (r : ApiResult SecretValue) : Prop :=
  (secretAt A.codec w.tables name = none ∧ r = .error .notFound) ∨
    ∃ s v x, secretAt A.codec w.tables name = some s ∧
      versionAt A.codec w.tables (versionKey name s.currentVersion) = some v ∧
      w.sealings name (w.incarnation name) s.currentVersion = some x ∧
      r = (decodePayload A s.format (x.payload.bytes A)).map fun payload =>
        { name := name, kind := s.kind, version := s.currentVersion, payload := payload, createdAt := v.createdAt }

section Together
variable {A : AppState} {w : World}

theorem shows_readNow (h : VaultInv A (unwrapping A) w) (name : String) :
    Shows A name w (readNow A name w.tables) := by
  cases hs : secretAt A.codec w.tables name with
  | none =>
      have hlookup : RedbStore.secret A.codec name w.tables = .ok none :=
        lookup_eq_none h.store.secrets_decode hs
      refine Or.inl ⟨hs, ?_⟩
      rw [readNow, RedbStore.currentVersion, hlookup]
  | some s =>
      obtain ⟨v, hv, _⟩ := h.store.current name s hs
      obtain ⟨hname, hpos⟩ := h.store.valid name s hs
      obtain ⟨x, hx, hrel⟩ := h.row name s.currentVersion v hname hpos hv
      have hvalid := h.sealed name _ _ x hx
      refine Or.inr ⟨s, v, x, hs, hv, hx, ?_⟩
      have hnumber : v.version = s.currentVersion := (h.store.owned_versionKey hname hpos hv).1
      rw [readNow, currentVersion_eq_ok.mpr ⟨hs, hv⟩]
      dsimp only
      rw [readVersion, hnumber, openVersion_of_unwraps hvalid hrel]
      change (decodePayload A s.format (x.payload.bytes A) >>= fun payload => pure (SecretValue.mk ..)) = _
      cases decodePayload A s.format (x.payload.bytes A) <;> rfl

/-- Reads, audit entries and attempts leave secrets and versions to their history. -/
theorem vault_quietOp {S : RowRel A} {op : Op} (h : VaultInv A S w) (hop : QuietOp op) :
    VaultInv A S (w.perform A op) ∧ Later w (w.perform A op) := by
  cases hop with
  | read => exact ⟨h, refl_of Later w⟩
  | kms => exact ⟨h, refl_of Later w⟩
  | attempt a name version =>
      unfold World.perform
      dsimp only
      split_ifs
      · exact vault_congr h rfl rfl rfl fun _ hy => List.mem_cons_of_mem _ hy
      · exact vault_congr h rfl rfl rfl fun _ hy => hy
  | audit entry =>
      exact commit_of (P := fun w' => VaultInv A S w' ∧ Later w w') ⟨h, refl_of Later w⟩ fun t' ht' =>
        vault_frame h (.appendAudit entry) rfl trivial ht'
  | failure key now max windowSecs lockoutSecs =>
      exact commit_of (P := fun w' => VaultInv A S w' ∧ Later w w') ⟨h, refl_of Later w⟩ fun t' ht' =>
        vault_frame h (.recordAuthFailure key now max windowSecs lockoutSecs) rfl trivial ht'

/-- The operations of a call: prepared ones, and quiet ones for a read. -/
def ClientOp (A : AppState) (I : World → Prop) (R : World → World → Prop) : ClientCall → World → Op → Prop
  | .service call, w, op => Prepared A I R call w op
  | _, _, op => QuietOp op

theorem clientBody_guards (call : ClientCall) (h : VaultInv A (unwrapping A) w) :
    Proc.Guards (World.perform A) (VaultInv A (unwrapping A)) Later
      (ClientOp A (VaultInv A (unwrapping A)) Later call) (call.body A) w fun _ _ => True := by
  cases call with
  | service call =>
      exact Proc.guards_bind h (body_guards (fun h => h.store) (fun h => h.accepted) call h)
        fun _ _ _ _ _ _ _ _ => trivial
  | get name clientIp d =>
      have honly := Proc.only_bind (f := fun r => .ret (r.map ClientReply.value))
        (getSecret_only (O := QuietOp) A name clientIp d) fun _ => trivial
      exact Proc.guards_of_under (Proc.under_of_only honly fun _ => trivial) (fun _ _ _ hop => hop) w
  | batch names clientIp d =>
      have honly := Proc.only_bind (f := fun r => .ret (r.map ClientReply.values))
        (getSecrets_only (O := QuietOp) A names clientIp d) fun _ => trivial
      exact Proc.guards_of_under (Proc.under_of_only honly fun _ => trivial) (fun _ _ _ hop => hop) w

/-- Where every re-wrap is current, the rows of every state stand for what was sealed. -/
theorem vault_clientServe {events : List (SystemEvent ClientCall)} (hw : w.Start)
    (hevents : AllSteps (clientServe A) (System.Allows (fun _ => True) (CurrentRewrap A)) ⟨w, []⟩ events) :
    VaultInv A (unwrapping A) (run (clientServe A) ⟨w, []⟩ events).shared := by
  have hguarded := System.run_guards (I := VaultInv A (unwrapping A)) (R := Later)
    (G := ClientOp A (VaultInv A (unwrapping A)) Later) (Q := fun _ _ _ => True)
    (fun call s _ hs => clientBody_guards call hs)
    (fun call s op _ hs hop hK => ?_) (vault_start hw) hevents
  · exact hguarded.inv
  · cases call with
    | service call => exact unwrapping_perform (fun h => h) hs hop hK
    | get name clientIp d => exact vault_quietOp hs hop
    | batch names clientIp d => exact vault_quietOp hs hop

end Together

/-- What a call may answer when these worlds are the moments at which it was under way. -/
def ClientCall.Answers (A : AppState) (moment : World → Prop) : ClientCall → ApiResult ClientReply → Prop
  | .service _, _ => True
  | .get name _ _, r => (isValidSecretName name = false ∧ r = .error .notFound) ∨
      ∃ w shown, moment w ∧ Shows A name w shown ∧ r = shown.map .value
  | .batch names _ _, r => ∀ values, r = .ok (.values values) →
      ∃ moments, (∀ w ∈ moments, moment w) ∧ BatchAnswers (Shows A) names moments values

/-- The world is that of a state of the run in which the call at this place was under way. -/
def MomentOf (A : AppState) (w : World) (events : List (SystemEvent ClientCall)) (place : Nat) (moment : World) : Prop :=
  ∃ before later, events = before ++ later ∧ (run (clientServe A) ⟨w, []⟩ before).shared = moment ∧
    (run (clientServe A) ⟨w, []⟩ before).UnderWay place

/-- In every interleaving of reads with creates, updates, rotations, deletions, sweeps and current re-wraps, a read that
has returned shows its secret as it was at one moment of the read, and a batch shows each of its secrets as it was at
one moment of the batch. -/
theorem reads_are_momentary (A : AppState) (w : World) (hw : w.Start) (events : List (SystemEvent ClientCall))
    (hevents : AllSteps (clientServe A) (System.Allows (fun _ => True) (CurrentRewrap A)) ⟨w, []⟩ events)
    (place : Nat) (call : ClientCall) (r : ApiResult ClientReply)
    (hcall : (run (clientServe A) ⟨w, []⟩ events).calls[place]? = some (call, .ret r)) :
    call.Answers A (MomentOf A w events place) r := by
  obtain ⟨seen, hafter, hseen⟩ := System.exists_script w events hcall
  have hmoment : ∀ {w' : World}, w' ∈ seen → MomentOf A w events place w' := fun hw' => hseen _ hw'
  have hvault : ∀ {w' : World}, w' ∈ seen → VaultInv A (unwrapping A) w' := by
    intro w' hw'
    obtain ⟨before, later, rfl, rfl, _⟩ := hseen w' hw'
    exact vault_clientServe hw (allSteps_append.mp hevents).1
  have hresult := Proc.result_of_after hafter.symm
  cases call with
  | service call => exact trivial
  | get name clientIp d =>
      obtain ⟨answer, first, rest, rfl, hfirst, hrest⟩ := Proc.result_bind hresult
      cases hrest
      cases hname : isValidSecretName name with
      | false =>
          rw [getSecret_result_invalid hname hfirst]
          exact Or.inl ⟨hname, rfl⟩
      | true =>
          obtain ⟨w', hw', rfl⟩ := getSecret_result hname hfirst
          have hin := List.mem_append_left rest hw'
          exact Or.inr ⟨w', _, hmoment hin, shows_readNow (hvault hin) name, rfl⟩
  | batch names clientIp d =>
      intro values hvalues
      obtain ⟨answer, first, rest, rfl, hfirst, hrest⟩ := Proc.result_bind hresult
      cases answer with
      | error e =>
          cases hrest
          cases hvalues
      | ok values' =>
          cases hrest
          cases hvalues
          obtain ⟨moments, hmoments, hanswers⟩ := getSecrets_result hfirst
          have hin : ∀ w' ∈ moments, w' ∈ first ++ rest := fun w' hw' => List.mem_append_left rest (hmoments hw')
          refine ⟨moments, fun w' hw' => hmoment (hin w' hw'), hanswers.imp fun name w' hw' r hr => ?_⟩
          rw [hr]
          exact shows_readNow (hvault (hin w' hw')) name

/-- An operation that rests on nothing the call has read is no re-wrap. -/
theorem currentRewrap_of_isBased {A : AppState} {op : Op} (hop : op.isBased = false) (w : World) :
    CurrentRewrap A w op := by
  unfold CurrentRewrap
  split
  · cases hop
  · trivial

/-- The secret `a` is created and read. -/
def createThenGet : List (SystemEvent ClientCall) :=
  (.start (.service (createA 1)) :: List.replicate 3 (.step 0)) ++
    (.start (.get "a" "10.0.0.1" (drawsOf 0 0 "")) :: List.replicate 2 (.step 1))

def valueA : SecretValue := ⟨"a", .manual, 1, .value "v", 0⟩

/-- The world in which `a` has been created. -/
def createdWorld (C : Codec) : World :=
  { freshWorld.withSealing "a" 1 (some (sealingA C 1)) with tables := oneSecret C secretA (sealingA C 1).record }

theorem readVersion_valueA (C : Codec) : readVersion (nodeWith C) "a" secretA (sealingA C 1).record = .ok valueA := by
  have hopen : openVersion (nodeWith C) "a" 1 (sealingA C 1).record = .ok (utf8 "v") :=
    openVersion_of_unwraps (valid_sealingOf C "a" 1 (.value "v") 0 1) ⟨rfl, rfl, rfl, rfl⟩
  have hdecode : decodePayload (nodeWith C) .opaqueValue (utf8 "v") = .ok (.value "v") :=
    decodePayload_bytes (A := nodeWith C) (.value "v")
  change (openVersion (nodeWith C) "a" 1 (sealingA C 1).record >>= fun bytes =>
    decodePayload (nodeWith C) .opaqueValue bytes >>= fun payload => pure (SecretValue.mk ..)) = _
  rw [hopen]
  change (decodePayload (nodeWith C) .opaqueValue (utf8 "v") >>= fun payload => pure (SecretValue.mk ..)) = _
  rw [hdecode]
  rfl

theorem getSecret_runs_valueA (C : Codec) (clientIp : String) (d : Draws) {K : World → Op → Prop}
    (hread : K (createdWorld C) .read) (hK : ∀ entry, K (createdWorld C) (.submit (.appendAudit entry) .nothing none)) :
    ∃ w', (getSecret (nodeWith C) "a" clientIp d).Runs (nodeWith C) K 2 (createdWorld C) valueA w' := by
  have hs : secretAt C (createdWorld C).tables "a" = some secretA := recordAt_insert_self _ _
  have hv : versionAt C (createdWorld C).tables (versionKey "a" 1) = some (sealingA C 1).record :=
    recordAt_insert_self _ _
  obtain ⟨entry, haudit⟩ := audit_runs (A := nodeWith C) (w := createdWorld C) none (some clientIp) "get" (some "a") "ok"
    d hK
  refine ⟨(createdWorld C).commit (nodeWith C) (.appendAudit entry) none,
    runs_bind (n := 0) (m := 2) (ofExcept_runs (a := ()) (if_pos isValidSecretName_a)) ?_⟩
  refine runs_bind (n := 1) (m := 1) (read_runs hread (currentVersion_eq_ok.mpr ⟨hs, hv⟩)) ?_
  refine runs_bind (n := 0) (m := 1) (ofExcept_runs (readVersion_valueA C)) ?_
  exact runs_bind (n := 1) (m := 0) haudit (pure_runs _)

theorem createThenGet_run (C : Codec) : ∃ w' q,
    RunsTo (clientServe (nodeWith C)) (System.Allows (fun _ => True) (CurrentRewrap (nodeWith C))) ⟨freshWorld, []⟩
      createThenGet ⟨w', [(.service (createA 1), q),
        (.get "a" "10.0.0.1" (drawsOf 0 0 ""), .ret (.ok (.value valueA)))]⟩ := by
  have hK (w : World) (op : Op) (hop : op.isBased = false) : CurrentRewrap (nodeWith C) w op :=
    currentRewrap_of_isBased hop w
  obtain ⟨q, hfirst⟩ : ∃ q, RunsTo (clientServe (nodeWith C))
      (System.Allows (fun _ => True) (CurrentRewrap (nodeWith C))) ⟨freshWorld, []⟩
      (.start (.service (createA 1)) :: List.replicate 3 (.step 0))
      ⟨createdWorld C, [(.service (createA 1), q)]⟩ := by
    obtain ⟨q, hcreate⟩ := create_one "root" 0 1 (w := freshWorld) (K := CurrentRewrap (nodeWith C))
      (@checkCreate_opaqueRequest C) isValidSecretName_a rfl (hK _)
    exact ⟨_, System.run_call (World.perform (nodeWith C)) (ClientCall.body (nodeWith C)) (P := fun _ => True) []
      (.service (createA 1)) trivial (Proc.reaches_bind (Proc.reaches_bind hcreate _) _)⟩
  obtain ⟨w', hget⟩ := getSecret_runs_valueA C "10.0.0.1" (drawsOf 0 0 "") (hK _ _ rfl) fun _ => hK _ _ rfl
  have hsecond := System.run_call (World.perform (nodeWith C)) (ClientCall.body (nodeWith C)) (P := fun _ => True)
    [(.service (createA 1), q)] (.get "a" "10.0.0.1" (drawsOf 0 0 "")) trivial
    (Proc.reaches_bind_ret (m := 0) hget ⟨rfl, rfl⟩)
  exact ⟨w', q, hfirst.append hsecond⟩

theorem reads_are_momentary_created :
    (ClientCall.get "a" "10.0.0.1" (drawsOf 0 0 "")).Answers (nodeWith jsonCodec)
      (MomentOf (nodeWith jsonCodec) freshWorld createThenGet 1) (.ok (.value valueA)) := by
  obtain ⟨w', q, hrun, hsteps⟩ := createThenGet_run jsonCodec
  refine reads_are_momentary (nodeWith jsonCodec) freshWorld freshWorld_start createThenGet hsteps 1 _ _ ?_
  rw [hrun]
  rfl

end HyperionVault
