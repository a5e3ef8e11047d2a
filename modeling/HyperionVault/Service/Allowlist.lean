import HyperionVault.Lib.Scripted
import HyperionVault.Service.Concrete

/-!
# Passwords go to listed endpoints only

The setting of the allowlist, the hosts of a target and the connections of a rotation are read by one and the same
splitter, so that they agree on every text. Whatever the hosts answer and whatever else happens meanwhile, a password
is sent to endpoints of the list only.

* `endpoint` : host and port of a text, up to the case of the host; `entries`, `Listed` : the entries of the setting;
* `mem_parseHosts`, `allows_build`, `allows_seeded` : the endpoints that a policy allows;
* `allows_buildPgTargetPolicy` : those that a node allows;
* `tryHosts_ops`, `tryHosts_result` : the attempts on the hosts, one after the other until one reports success;
* `passwords_stay_listed` : one call; `tryLogins_listed` : a rotation with all its logins.
-/

namespace HyperionVault
open Lib

/-- Host and port of a text; the case of ASCII letters in the host does not count. -/
def endpoint (hostport : String) : String × UInt16 :=
  (asciiLowercase (splitHostport hostport).1, (splitHostport hostport).2)

/-- The texts between the commas of the setting, trimmed. -/
def pieces (raw : String) : List String := ((raw.toList.splitOn ',').map trim).map String.ofList

/-- The entries of the setting: the texts that are not blank. -/
def entries (raw : String) : List String :=
  (((raw.toList.splitOn ',').map trim).filter fun entry => !entry.isEmpty).map String.ofList

/-- One of the texts has the host, up to ASCII case, and the port. -/
def Listed (texts : List String) (host : String) (port : UInt16) : Prop :=
  ∃ text ∈ texts, asciiLowercase (splitHostport text).1 = asciiLowercase host ∧ (splitHostport text).2 = port

/-! ## The endpoints of a policy -/

section Policy
variable {clientConfig : Option String → Except String Unit} {mode : PgTlsMode} {caFile : Option String}
  {policy : PgTargetPolicy}

theorem mem_pushHost {hosts : List (String × UInt16)} {host : String} {port : UInt16} {x : String × UInt16} :
    x ∈ pushHost hosts host port ↔ x ∈ hosts ∨ x = (asciiLowercase host, port) := by
  unfold pushHost
  dsimp only
  split_ifs with hknown
  · obtain ⟨y, hy, heq⟩ := List.any_eq_true.mp hknown
    obtain ⟨hhost, hport⟩ := Bool.and_eq_true_iff.mp heq
    have hxy : (asciiLowercase host, port) = y := Prod.ext (eq_of_beq hhost).symm (eq_of_beq hport).symm
    refine ⟨Or.inl, fun h => h.elim id fun hx => ?_⟩
    rw [hx, hxy]
    exact hy
  · rw [List.mem_append, List.mem_singleton]

theorem parseHostEntries_ok {pieces : List (List Char)} {hosts hosts' : List (String × UInt16)}
    (h : parseHostEntries pieces hosts = .ok hosts') (x : String × UInt16) :
    x ∈ hosts' ↔ x ∈ hosts ∨
      ∃ entry ∈ ((pieces.map trim).filter fun entry => !entry.isEmpty).map String.ofList, x = endpoint entry := by
  induction pieces generalizing hosts with
  | nil =>
      cases h
      simp
  | cons raw rest ih =>
      rw [parseHostEntries] at h
      dsimp only at h
      rw [List.map_cons]
      split_ifs at h with hblank hempty
      · rw [ih h, List.filter_cons_of_neg (by simp [hblank])]
      · rw [ih h, mem_pushHost, List.filter_cons_of_pos (by simp [hblank]), List.map_cons]
        simp only [List.mem_cons, exists_eq_or_imp, or_assoc]
        rfl

theorem mem_parseHosts {raw : String} {hosts : List (String × UInt16)} (h : parseHosts raw = .ok hosts)
    (x : String × UInt16) : x ∈ hosts ↔ ∃ entry ∈ entries raw, x = endpoint entry := by
  rw [parseHostEntries_ok h x]
  simp only [List.not_mem_nil, false_or]
  rfl

theorem fromHosts_ok {hosts : List (String × UInt16)}
    (h : PgTargetPolicy.fromHosts clientConfig hosts mode caFile = .ok policy) : policy.hosts = hosts := by
  unfold PgTargetPolicy.fromHosts at h
  split_ifs at h
  · cases h
    rfl
  · cases mode with
    | disable | prefer =>
        cases h
        rfl
    | verifyFull =>
        dsimp only at h
        cases hconfig : clientConfig caFile with
        | error e => rw [hconfig] at h; cases h
        | ok => rw [hconfig] at h; cases h; rfl

theorem allows_iff {hostport : String} : policy.allows hostport = true ↔ endpoint hostport ∈ policy.hosts := by
  unfold PgTargetPolicy.allows endpoint
  simp [List.any_eq_true]

/-- A policy of a setting allows what an entry of the setting lists. -/
theorem allows_build {raw : String} (h : PgTargetPolicy.build clientConfig raw mode caFile = .ok policy)
    {hostport : String} : policy.allows hostport = true ↔
      Listed (entries raw) (splitHostport hostport).1 (splitHostport hostport).2 := by
  obtain ⟨hosts, hparse, hpolicy⟩ := bind_eq_ok.mp h
  rw [allows_iff, fromHosts_ok hpolicy, mem_parseHosts hparse]
  refine exists_congr fun entry => and_congr_right fun _ => ?_
  rw [endpoint, endpoint, Prod.mk.injEq]
  exact and_congr eq_comm eq_comm

theorem mem_seedHosts {stored : List String} {hosts : List (String × UInt16)} (x : String × UInt16) :
    x ∈ seedHosts stored hosts ↔ x ∈ hosts ∨ ∃ entry ∈ stored,
      (splitHostport (String.ofList (trim entry.toList))).1 ≠ "" ∧ x = endpoint (String.ofList (trim entry.toList)) := by
  induction stored generalizing hosts with
  | nil => simp [seedHosts]
  | cons entry rest ih =>
      rw [seedHosts]
      dsimp only
      split_ifs with hempty
      · rw [ih]
        simp only [List.mem_cons, exists_eq_or_imp, String.isEmpty_iff.mp hempty, ne_eq, not_true_eq_false, false_and,
          false_or]
      · have hne : (splitHostport (String.ofList (trim entry.toList))).1 ≠ "" := fun h =>
          hempty (String.isEmpty_iff.mpr h)
        rw [ih, mem_pushHost]
        simp only [List.mem_cons, exists_eq_or_imp, hne, ne_eq, not_false_eq_true, true_and, or_assoc]
        rfl

/-- Without a setting, the endpoints of the stored targets are allowed. -/
theorem allows_seeded {stored : List String}
    (h : PgTargetPolicy.seeded clientConfig stored mode caFile = .ok policy) {hostport : String} :
    policy.allows hostport = true ↔ ∃ entry ∈ stored, (splitHostport (String.ofList (trim entry.toList))).1 ≠ "" ∧
      endpoint hostport = endpoint (String.ofList (trim entry.toList)) := by
  rw [allows_iff, fromHosts_ok h, mem_seedHosts]
  simp only [List.not_mem_nil, false_or]

theorem mapError_eq_ok {α : Type} {r : Except String α} {f : String → String} {a : α} (h : r.mapError f = .ok a) :
    r = .ok a := by
  cases r with
  | error e => cases h
  | ok b =>
      cases h
      rfl

/-- A node allows the endpoints that its setting lists, or, if that is blank, those of the targets that it started
with. -/
theorem allows_buildPgTargetPolicy {cfg : Config} {stored : List SecretRecord}
    (h : buildPgTargetPolicy clientConfig cfg stored = .ok policy) {hostport : String} :
    policy.allows hostport = true ↔
      if (trim cfg.pgTargetHosts.toList).isEmpty then
        ∃ secret ∈ stored, ∃ entry ∈ secret.targetHosts, (splitHostport (String.ofList (trim entry.toList))).1 ≠ "" ∧
          endpoint hostport = endpoint (String.ofList (trim entry.toList))
      else Listed (entries cfg.pgTargetHosts) (splitHostport hostport).1 (splitHostport hostport).2 := by
  unfold buildPgTargetPolicy at h
  cases hblank : (trim cfg.pgTargetHosts.toList).isEmpty with
  | false =>
      rw [hblank, Bool.not_false, if_pos rfl] at h
      rw [if_neg Bool.false_ne_true]
      exact allows_build (mapError_eq_ok h)
  | true =>
      rw [hblank, Bool.not_true, if_neg Bool.false_ne_true] at h
      rw [if_pos rfl, allows_seeded (mapError_eq_ok h)]
      simp only [List.mem_flatMap]
      constructor
      · rintro ⟨entry, ⟨secret, hsecret, hentry⟩, hrest⟩
        exact ⟨secret, hsecret, entry, hentry, hrest⟩
      · rintro ⟨secret, hsecret, entry, hentry, hrest⟩
        exact ⟨entry, ⟨secret, hsecret, hentry⟩, hrest⟩

theorem check_ok_iff {pg : PgRoleTarget} : policy.check pg = .ok () ↔
    pg.hosts ≠ [] ∧ policy.hosts ≠ [] ∧ ∀ hostport ∈ pg.hosts, policy.allows hostport = true := by
  unfold PgTargetPolicy.check
  split_ifs with htarget hpolicy
  · simp [List.isEmpty_iff.mp htarget]
  · simp [List.isEmpty_iff.mp hpolicy]
  · rw [List.isEmpty_iff] at htarget hpolicy
    cases hfind : pg.hosts.find? fun hostport => !policy.allows hostport with
    | none => simpa [htarget, hpolicy] using hfind
    | some hostport =>
        have hmem := List.mem_of_find?_eq_some hfind
        have hrefused := List.find?_some hfind
        simp only [reduceCtorEq, false_iff]
        rintro ⟨_, _, hall⟩
        simp [hall hostport hmem] at hrefused

end Policy

/-! ## The attempts -/

section Attempts
variable (A : AppState) (pg : PgRoleTarget) (login : UserPass) (role newPassword name : String) (version : Int32)

/-- The host reports success when it is tried in this world. -/
def reportsSuccess (tried : String × World) : Bool :=
  decide (tried.2.tryRotate (attemptOn pg login role newPassword tried.1) = .ok true)

/-- The hosts in their order, with the worlds they are tried in, through the first one that reports success. -/
def triedHosts (hosts : List String) (seen : List World) : List (String × World) :=
  takeThrough (reportsSuccess pg login role newPassword) (hosts.zip seen)

variable {pg login role newPassword name version}

theorem tryHosts_ops (hosts : List String) (lastErr : Option String) (seen : List World) :
    (tryHosts pg login role newPassword name version hosts lastErr).ops seen =
      (triedHosts pg login role newPassword hosts seen).map fun tried =>
        .attempt (attemptOn pg login role newPassword tried.1) name version := by
  unfold triedHosts
  induction hosts generalizing lastErr seen with
  | nil => rfl
  | cons hostport rest ih =>
      cases seen with
      | nil =>
          rw [tryHosts_cons]
          rfl
      | cons w seen =>
          rw [tryHosts_cons, List.zip_cons_cons, takeThrough, Proc.ops]
          rcases hanswer : w.tryRotate (attemptOn pg login role newPassword hostport) with message | answer
          · rw [afterAnswer, ih, if_neg (by simp [reportsSuccess, hanswer]), List.map_cons]
          · cases answer with
            | false => rw [afterAnswer, ih, if_neg (by simp [reportsSuccess, hanswer]), List.map_cons]
            | true =>
                rw [afterAnswer, if_pos (by simp [reportsSuccess, hanswer])]
                rfl

/-- The loop ends well if a host reports success, and otherwise with the last host. -/
theorem tryHosts_result (hosts : List String) (lastErr : Option String) (seen : List World) :
    ((tryHosts pg login role newPassword name version hosts lastErr).result seen = some (.ok ()) ↔
      ∃ tried ∈ hosts.zip seen, reportsSuccess pg login role newPassword tried = true) ∧
    (hosts.length ≤ seen.length →
      (tryHosts pg login role newPassword name version hosts lastErr).result seen ≠ none) := by
  induction hosts generalizing lastErr seen with
  | nil => simp [tryHosts, Proc.result, pure]
  | cons hostport rest ih =>
      cases seen with
      | nil =>
          rw [tryHosts_cons]
          simp [Proc.result]
      | cons w seen =>
          rw [tryHosts_cons, Proc.result, List.zip_cons_cons, List.length_cons, List.length_cons,
            Nat.succ_le_succ_iff]
          simp only [List.mem_cons, exists_eq_or_imp]
          rcases hanswer : w.tryRotate (attemptOn pg login role newPassword hostport) with message | answer
          · have hnot : reportsSuccess pg login role newPassword (hostport, w) = false := by
              simp [reportsSuccess, hanswer]
            rw [afterAnswer, hnot]
            simpa using ih (some message) seen
          · cases answer with
            | false =>
                have hnot : reportsSuccess pg login role newPassword (hostport, w) = false := by
                  simp [reportsSuccess, hanswer]
                rw [afterAnswer, hnot]
                simpa using ih lastErr seen
            | true =>
                have hdone : reportsSuccess pg login role newPassword (hostport, w) = true := by
                  simp [reportsSuccess, hanswer]
                simp [afterAnswer, Proc.result, hdone]

/-! ## The call -/

variable (pg login role newPassword name version)

/-- A call that gets to see these worlds attempts connections to listed endpoints only: to none if the target or the
allowlist is empty or a host of the target is not listed, and otherwise to its hosts in their order, through the first
one that reports success. -/
structure StaysListed (listed : String → UInt16 → Prop) (seen : List World) : Prop where
  attempted : ∀ op ∈ (applyPassword A pg login role newPassword name version).ops seen,
    ∃ a, op = .attempt a name version ∧ listed a.host a.port
  refused : (pg.hosts = [] ∨ A.pgTargets.hosts = [] ∨
      ∃ hostport ∈ pg.hosts, ¬listed (splitHostport hostport).1 (splitHostport hostport).2) →
    (applyPassword A pg login role newPassword name version).ops seen = []
  tried : pg.hosts ≠ [] → A.pgTargets.hosts ≠ [] →
    (∀ hostport ∈ pg.hosts, listed (splitHostport hostport).1 (splitHostport hostport).2) →
    (applyPassword A pg login role newPassword name version).ops seen =
      (triedHosts pg login role newPassword pg.hosts seen).map fun tried =>
        .attempt (attemptOn pg login role newPassword tried.1) name version
  /-- The call returns once every host has had the time to answer. -/
  returned : pg.hosts ≠ [] → A.pgTargets.hosts ≠ [] →
    (∀ hostport ∈ pg.hosts, listed (splitHostport hostport).1 (splitHostport hostport).2) →
    ((applyPassword A pg login role newPassword name version).result seen = some (.ok ()) ↔
      ∃ tried ∈ triedHosts pg login role newPassword pg.hosts seen,
        reportsSuccess pg login role newPassword tried = true) ∧
    (pg.hosts.length ≤ seen.length →
      (applyPassword A pg login role newPassword name version).result seen ≠ none)

/-- A target that passes the check is tried, one that does not is not. -/
theorem applyPassword_cases :
    (A.pgTargets.check pg = .ok () ∧ applyPassword A pg login role newPassword name version =
      tryHosts pg login role newPassword name version pg.hosts none) ∨
    (A.pgTargets.check pg ≠ .ok () ∧
      ∃ message, applyPassword A pg login role newPassword name version = .ret (.error message)) := by
  unfold applyPassword
  cases hcheck : A.pgTargets.check pg with
  | ok => exact Or.inl ⟨rfl, rfl⟩
  | error message =>
      refine Or.inr ⟨?_, message, rfl⟩
      intro h
      cases h

variable {A pg login role newPassword name version}

/-- What the policy allows is what is listed. -/
theorem staysListed_of_allows {listed : String → UInt16 → Prop}
    (hlisted : ∀ hostport, A.pgTargets.allows hostport = true ↔
      listed (splitHostport hostport).1 (splitHostport hostport).2) (seen : List World) :
    StaysListed A pg login role newPassword name version listed seen := by
  have hcheck : A.pgTargets.check pg = .ok () ↔ pg.hosts ≠ [] ∧ A.pgTargets.hosts ≠ [] ∧
      ∀ hostport ∈ pg.hosts, listed (splitHostport hostport).1 (splitHostport hostport).2 := by
    rw [check_ok_iff]
    simp only [hlisted]
  rcases applyPassword_cases A pg login role newPassword name version with ⟨hok, hcall⟩ | ⟨hno, message, hcall⟩
  · obtain ⟨htarget, hpolicy, hall⟩ := hcheck.mp hok
    refine ⟨fun op hop => ?_, fun h => ?_, fun _ _ _ => ?_, fun _ _ _ => ?_⟩
    · rw [hcall, tryHosts_ops] at hop
      obtain ⟨tried, htried, rfl⟩ := List.mem_map.mp hop
      exact ⟨_, rfl, hall _ (List.of_mem_zip (mem_of_mem_takeThrough htried)).1⟩
    · rcases h with h | h | ⟨hostport, hmem, h⟩
      · exact absurd h htarget
      · exact absurd h hpolicy
      · exact absurd (hall hostport hmem) h
    · rw [hcall, tryHosts_ops]
    · rw [hcall, triedHosts, exists_mem_takeThrough]
      exact tryHosts_result _ _ seen
  · refine ⟨fun op hop => ?_, fun _ => ?_, fun h h' hall => ?_, fun h h' hall => ?_⟩
    · rw [hcall] at hop
      exact absurd hop List.not_mem_nil
    · rw [hcall]
      rfl
    · exact absurd (hcheck.mpr ⟨h, h', hall⟩) hno
    · exact absurd (hcheck.mpr ⟨h, h', hall⟩) hno

end Attempts

/-- With an allowlist that was built from a setting, passwords are sent to the endpoints of its entries only. -/
theorem passwords_stay_listed (clientConfig : Option String → Except String Unit) (raw : String) (mode : PgTlsMode)
    (caFile : Option String) (A : AppState)
    (hbuild : PgTargetPolicy.build clientConfig raw mode caFile = .ok A.pgTargets) (pg : PgRoleTarget)
    (login : UserPass) (role newPassword name : String) (version : Int32) (seen : List World) :
    StaysListed A pg login role newPassword name version (Listed (entries raw)) seen :=
  staysListed_of_allows (fun _ => allows_build hbuild) seen

/-- Whatever else the system does, a rotation with all its logins sends passwords to these endpoints only. -/
theorem tryLogins_listed {clientConfig : Option String → Except String Unit} {raw : String} {mode : PgTlsMode}
    {caFile : Option String} {A : AppState}
    (hbuild : PgTargetPolicy.build clientConfig raw mode caFile = .ok A.pgTargets) (pg : PgRoleTarget)
    (role newPassword name : String) (version : Int32) (logins : List UserPass) (lastErr : Option String) :
    (tryLogins A pg role newPassword name version logins lastErr).run.Only fun op =>
      ∃ a, op = .attempt a name version ∧ Listed (entries raw) a.host a.port := by
  induction logins generalizing lastErr with
  | nil => exact trivial
  | cons login rest ih =>
      have : Nonempty World := ⟨freshWorld⟩
      refine Proc.only_bind_ok (Proc.only_lift (Proc.only_of_ops fun seen => ?_)) fun answer => ?_
      · exact (staysListed_of_allows (fun _ => allows_build hbuild) seen).attempted
      · cases answer with
        | ok u => exact trivial
        | error message => exact ih _

/-- A node with this allowlist. -/
def listedNode (hosts : List (String × UInt16)) : AppState := { nodeWith jsonCodec with pgTargets := ⟨hosts⟩ }

def pgTargetOf (hosts : List String) : PgRoleTarget := ⟨hosts, "postgres", none, none⟩

/-- Names in another case, a default port, and an IPv6 address. -/
theorem mixed_hosts_stay_listed :
    PgTargetPolicy.build (fun _ => .ok ()) "DB1.local, [::1]:6000" .prefer none =
      .ok (listedNode [("db1.local", 5432), ("::1", 6000)]).pgTargets ∧
    StaysListed (listedNode [("db1.local", 5432), ("::1", 6000)]) (pgTargetOf ["db1.LOCAL:5432", "[::1]:6000"])
      ⟨"app", "old"⟩ "app" "new" "a" 2 (Listed (entries "DB1.local, [::1]:6000")) [freshWorld, freshWorld] :=
  ⟨rfl, passwords_stay_listed (fun _ => .ok ()) "DB1.local, [::1]:6000" .prefer none _ rfl _ _ _ _ _ _ _⟩

/-! ## A target without a host -/

/-- The text after a last comma has the host and the port of the empty text, but it is no entry: a target without a
host is refused, although such a text stands in the setting. -/
theorem blank_text_lists_nothing :
    PgTargetPolicy.build (fun _ => .ok ()) "db1," .prefer none = .ok (listedNode [("db1", 5432)]).pgTargets ∧
    (∀ hostport ∈ (pgTargetOf [""]).hosts,
      Listed (pieces "db1,") (splitHostport hostport).1 (splitHostport hostport).2) ∧
    (∀ seen, (applyPassword (listedNode [("db1", 5432)]) (pgTargetOf [""]) ⟨"app", "old"⟩ "app" "new" "a" 2).result
      seen = some (.error "pg_replica host '' is not in VAULT_PG_TARGET_HOSTS")) ∧
    ¬StaysListed (listedNode [("db1", 5432)]) (pgTargetOf [""]) ⟨"app", "old"⟩ "app" "new" "a" 2
      (Listed (pieces "db1,")) [freshWorld] := by
  have hlisted : ∀ hostport ∈ (pgTargetOf [""]).hosts,
      Listed (pieces "db1,") (splitHostport hostport).1 (splitHostport hostport).2 := fun hostport hmem =>
    ⟨"", by decide, by rw [List.mem_singleton.mp hmem]; exact ⟨rfl, rfl⟩⟩
  refine ⟨rfl, hlisted, fun seen => rfl, fun h => ?_⟩
  have htried := h.tried (by decide) (by decide) hlisted
  cases htried

end HyperionVault
