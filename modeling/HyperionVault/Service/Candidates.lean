import HyperionVault.Service.Grace

/-!
# The logins of a rotation

A rotation of a secret that is its own login for the target tries the stored passwords of at most four versions:
the one it supersedes, the new one, and then the newest live ones.

* `candidateVersions_eq`, `mem_candidateVersions` : which versions these are;
* `loadLogins_exec`, `selfLoginCandidates_exec` : their logins;
* `tryHosts_exec`, `tryLogins_exec` : what the logins get from a target that answers;
* `rotateFinish_recovers` : a rotation with the current login among them.
-/

namespace HyperionVault
open Lib

/-! ## The versions that are tried -/

/-- In a list that descends, an element is among the first two exactly if at most one other is above it. -/
theorem mem_take_two {α : Type} [LinearOrder α] {l : List α} (h : l.Pairwise (· > ·)) {u : α} (hu : u ∈ l) :
    u ∈ l.take 2 ↔ ∀ a ∈ l, ∀ b ∈ l, u < a → u < b → a = b := by
  match l, h, hu with
  | [a], _, hu => simpa using hu
  | a :: b :: rest, h, hu =>
      obtain ⟨habove, hrest⟩ := List.pairwise_cons.mp h
      obtain ⟨hbelow, _⟩ := List.pairwise_cons.mp hrest
      have hba : b < a := habove b List.mem_cons_self
      rw [show (a :: b :: rest).take 2 = [a, b] from rfl]
      constructor
      · intro htake c hc c' hc' hlt hlt'
        -- above the second element there is only the first
        have honly {c : α} (hc : c ∈ a :: b :: rest) (hlt : u < c) : c = a := by
          rcases List.mem_cons.mp hc with rfl | htail
          · rfl
          · rcases List.mem_pair.mp htake with rfl | rfl
            · exact absurd hlt (not_lt.mpr (habove c htail).le)
            · rcases List.mem_cons.mp htail with rfl | hlast
              · exact absurd hlt (lt_irrefl _)
              · exact absurd hlt (not_lt.mpr (hbelow c hlast).le)
        rw [honly hc hlt, honly hc' hlt']
      · intro hone
        by_contra htake
        rw [List.mem_pair, not_or] at htake
        have hmem : u ∈ rest := by simpa [htake.1, htake.2] using hu
        have hub : u < b := hbelow u hmem
        exact absurd (hone a List.mem_cons_self b (by simp) (hub.trans hba) hub) hba.ne'

section Candidates
variable {versions : List Int32} {live : List VersionRecord} {previous u : Int32}

theorem foldl_candidates (h : live.Pairwise fun a b => a.version ≠ b.version) :
    live.foldl (fun versions record =>
      if versions.contains record.version then versions else versions ++ [record.version]) versions =
    versions ++ (live.map VersionRecord.version).filter (· ∉ versions) := by
  induction live generalizing versions with
  | nil => simp
  | cons v rest ih =>
      obtain ⟨hne, hrest⟩ := List.pairwise_cons.mp h
      rw [List.foldl_cons, ih hrest, List.map_cons]
      by_cases hv : v.version ∈ versions
      · rw [if_pos (List.contains_iff_mem.mpr hv), List.filter_cons_of_neg (by simpa using hv)]
      · rw [if_neg (by simpa using hv), List.filter_cons_of_pos (by simpa using hv), List.append_assoc]
        have hfilter : (rest.map VersionRecord.version).filter (· ∉ versions ++ [v.version]) =
            (rest.map VersionRecord.version).filter (· ∉ versions) := by
          refine List.filter_congr fun k hk => ?_
          obtain ⟨v', hv', rfl⟩ := List.mem_map.mp hk
          simp [(hne v' hv').symm]
        rw [hfilter]
        rfl

theorem candidateVersions_eq (h : live.Pairwise fun a b => b.version < a.version) :
    candidateVersions previous live =
      previous :: ((live.map VersionRecord.version).filter (· ≠ previous)).take 3 := by
  unfold candidateVersions
  rw [foldl_candidates (h.imp fun hab => hab.ne')]
  simp [maxLoginCandidates]

/-- With a version every newer live one is tried. -/
theorem candidateVersions_upward (h : live.Pairwise fun a b => b.version < a.version) {k : Int32}
    (hk : k ∈ candidateVersions previous live) (hne : k ≠ previous) (hu : ∃ v ∈ live, v.version = u) (hlt : k < u) :
    u ∈ candidateVersions previous live := by
  have hdescending : ((live.map VersionRecord.version).filter (· ≠ previous)).Pairwise (· > ·) :=
    (List.pairwise_map.mpr h).filter _
  rw [candidateVersions_eq h] at hk ⊢
  by_cases hup : u = previous
  · rw [hup]
    exact List.mem_cons_self
  · have hmem : u ∈ (live.map VersionRecord.version).filter (· ≠ previous) :=
      List.mem_filter.mpr ⟨List.mem_map.mpr hu, by simpa using hup⟩
    rw [← List.take_append_drop 3 ((live.map VersionRecord.version).filter (· ≠ previous))] at hdescending hmem
    refine List.mem_cons_of_mem _ ((List.mem_append.mp hmem).resolve_right fun hdrop => ?_)
    have hgt := (List.pairwise_append.mp hdescending).2.2 k ((List.mem_cons.mp hk).resolve_left hne) u hdrop
    exact absurd hlt (not_lt.mpr hgt.le)

/-- The version superseded last, the new one and the two newest live ones before them are tried. -/
theorem mem_candidateVersions {next : VersionRecord} (h : (next :: live).Pairwise fun a b => b.version < a.version)
    (hnext : next.version ≠ previous) (hbelow : ∀ v ∈ live, v.version ≤ previous) (hu : ∃ v ∈ live, v.version = u)
    (hlt : u < previous) :
    u ∈ candidateVersions previous (next :: live) ↔
      ∀ a ∈ live, ∀ b ∈ live, u < a.version → u < b.version → a.version < previous → b.version < previous →
        a.version = b.version := by
  obtain ⟨habove, hlive⟩ := List.pairwise_cons.mp h
  have hune : u ≠ next.version := by
    obtain ⟨v, hv, rfl⟩ := hu
    exact (habove v hv).ne
  have hrest : ((live.map VersionRecord.version).filter (· ≠ previous)).Pairwise (· > ·) :=
    (List.pairwise_map.mpr hlive).filter _
  have hmem (k : Int32) : k ∈ (live.map VersionRecord.version).filter (· ≠ previous) ↔
      (∃ v ∈ live, v.version = k) ∧ k < previous := by
    rw [List.mem_filter, List.mem_map, decide_eq_true_iff]
    refine and_congr_right fun ⟨v, hv, hk⟩ => ⟨fun hne => lt_of_le_of_ne (hk ▸ hbelow v hv) hne, fun hlt => hlt.ne⟩
  rw [candidateVersions_eq h, List.map_cons, List.filter_cons_of_pos (by simpa using hnext), List.take_succ_cons,
    List.mem_cons, List.mem_cons, or_iff_right hlt.ne, or_iff_right hune, mem_take_two hrest ((hmem u).mpr ⟨hu, hlt⟩)]
  constructor
  · intro hone a ha b hb hua hub hap hbp
    exact hone _ ((hmem _).mpr ⟨⟨a, ha, rfl⟩, hap⟩) _ ((hmem _).mpr ⟨⟨b, hb, rfl⟩, hbp⟩) hua hub
  · intro hone k hk k' hk' huk huk'
    obtain ⟨⟨a, ha, rfl⟩, hap⟩ := (hmem k).mp hk
    obtain ⟨⟨b, hb, rfl⟩, hbp⟩ := (hmem k').mp hk'
    exact hone a ha b hb huk huk' hap hbp

end Candidates

/-! ## Their logins -/

section Logins
variable {A : AppState} {w : World} {name : String}

/-- Where every version is stored and holds a login, these logins are loaded. -/
theorem loadLogins_exec {payload : Int32 → Option Payload} {versions : List Int32}
    (h : ∀ k ∈ versions, ∃ v login, versionAt A.codec w.tables (versionKey name k) = some v ∧
      payload k = some (.userpass login) ∧ openVersion A name k v = .ok (A.userpass.encode login)) :
    ∃ logins, (loadLogins A name versions).exec A w = (.ok logins, w) ∧
      ∀ login, login ∈ logins ↔ ∃ k ∈ versions, payload k = some (.userpass login) := by
  induction versions with
  | nil => exact ⟨[], rfl, by simp⟩
  | cons k rest ih =>
      obtain ⟨v, login, hv, hpayload, hopen⟩ := h k List.mem_cons_self
      obtain ⟨logins, hrest, hmem⟩ := ih fun k' hk' => h k' (List.mem_cons_of_mem _ hk')
      have hread : (Call.read (RedbStore.version A.codec name k)).exec A w = (.ok (some v), w) := by
        rw [Call.exec_read, version_eq_ok.mpr hv]
        rfl
      have hopened : (Call.ofExcept id (openVersion A name k v)).exec A w = (.ok (A.userpass.encode login), w) := by
        rw [Call.exec_ofExcept, hopen]
        rfl
      refine ⟨login :: logins, ?_, fun other => ?_⟩
      · rw [loadLogins, Call.exec_bind_ok hread]
        dsimp only
        rw [Call.exec_bind_ok hopened, Call.exec_bind_ok hrest, A.userpass.decode_encode]
        rfl
      · rw [List.mem_cons, hmem]
        simp [hpayload, eq_comm]

/-! ## A target that answers -/

/-- Every attempt from now on reaches the primary. -/
def World.Answers (w : World) : Prop := ∀ k, w.attempts ≤ k → w.network k = .primary

theorem World.Answers.later (h : w.Answers) (n : Nat) : ({ w with attempts := w.attempts + n } : World).Answers :=
  fun k hk => h k ((Nat.le_add_right _ _).trans hk)

theorem tryRotate_accepted (h : w.Answers) {a : Attempt} (hok : w.loginOk a = true) : w.tryRotate a = .ok true := by
  simp only [World.tryRotate, h w.attempts (le_refl _), hok, if_true]

theorem tryRotate_refused (h : w.Answers) {a : Attempt} (hok : w.loginOk a = false) :
    w.tryRotate a = .error ("connect " ++ World.endpoint a ++ ": db error") := by
  simp only [World.tryRotate, h w.attempts (le_refl _), hok, Bool.false_eq_true, if_false]

theorem accepts_of_loginOk {a : Attempt} (h : w.loginOk a = false) : w.accepts a = false := by
  unfold World.accepts
  split <;> first | exact h | rfl

/-- The first host is tried, then the others. -/
theorem tryHosts_exec (pg : PgRoleTarget) (login : UserPass) (role newPassword name : String) (version : Int32)
    (hostport : String) (rest : List String) (lastErr : Option String) (w : World) : ∃ a : Attempt, a.login = login ∧
    (tryHosts pg login role newPassword name version (hostport :: rest) lastErr).exec (World.perform A) w =
      match w.tryRotate a with
      | .ok true => (.ok (), w.perform A (.attempt a name version))
      | .ok false => (tryHosts pg login role newPassword name version rest lastErr).exec (World.perform A)
          (w.perform A (.attempt a name version))
      | .error message => (tryHosts pg login role newPassword name version rest (some message)).exec (World.perform A)
          (w.perform A (.attempt a name version)) := by
  refine ⟨attemptOn pg login role newPassword hostport, rfl, ?_⟩
  rw [tryHosts_cons, Proc.exec]
  rcases w.tryRotate (attemptOn pg login role newPassword hostport) with message | answer
  · rfl
  · cases answer <;> rfl

/-- A login that is not accepted changes nothing, at whatever hosts it is tried. -/
theorem tryHosts_refused (pg : PgRoleTarget) {login : UserPass} (role newPassword name : String) (version : Int32)
    (hosts : List String) (lastErr : Option String) (h : w.Answers)
    (hlogin : w.passwords login.username ≠ some login.password) :
    ∃ message, (tryHosts pg login role newPassword name version hosts lastErr).exec (World.perform A) w =
      (.error message, { w with attempts := w.attempts + hosts.length }) := by
  induction hosts generalizing w lastErr with
  | nil => exact ⟨_, rfl⟩
  | cons hostport rest ih =>
      obtain ⟨a, rfl, hexec⟩ := tryHosts_exec (A := A) pg login role newPassword name version hostport rest lastErr w
      have hrefused : w.loginOk a = false := decide_eq_false hlogin
      have hafter : w.perform A (.attempt a name version) = { w with attempts := w.attempts + 1 } := by
        simp only [World.perform, accepts_of_loginOk hrefused, Bool.false_eq_true, if_false]
      rw [tryRotate_refused h hrefused, hafter] at hexec
      obtain ⟨message, hlast⟩ := @ih { w with attempts := w.attempts + 1 }
        (some ("connect " ++ World.endpoint a ++ ": db error")) (h.later 1) hlogin
      refine ⟨message, hexec.trans (hlast.trans ?_)⟩
      rw [List.length_cons, Nat.add_assoc, Nat.add_comm 1]

/-- The current login is accepted by the first host. -/
theorem tryHosts_accepted (pg : PgRoleTarget) {login : UserPass} (role newPassword name : String) (version : Int32)
    (hostport : String) (rest : List String) (lastErr : Option String) (h : w.Answers)
    (hlogin : w.passwords login.username = some login.password) :
    ∃ w', (tryHosts pg login role newPassword name version (hostport :: rest) lastErr).exec (World.perform A) w =
      (.ok (), w') := by
  obtain ⟨a, rfl, hexec⟩ := tryHosts_exec (A := A) pg login role newPassword name version hostport rest lastErr w
  rw [tryRotate_accepted h (decide_eq_true hlogin)] at hexec
  exact ⟨_, hexec⟩

theorem hosts_of_check {policy : PgTargetPolicy} {pg : PgRoleTarget} (h : policy.check pg = .ok ()) :
    ∃ hostport rest, pg.hosts = hostport :: rest := by
  unfold PgTargetPolicy.check at h
  split_ifs at h with hempty
  cases hhosts : pg.hosts with
  | nil => exact absurd (by rw [hhosts]; rfl) hempty
  | cons hostport rest => exact ⟨hostport, rest, rfl⟩

section Tries
variable {pg : PgRoleTarget} {role newPassword name : String} {version : Int32}
  {first : UserPass} {rest : List UserPass}
  {lastErr : Option String} {w₁ : World}

theorem tryLogins_first (h : (applyPassword A pg first role newPassword name version).exec (World.perform A) w =
      (.ok (), w₁)) :
    (tryLogins A pg role newPassword name version (first :: rest) lastErr).exec A w = (.ok (), w₁) := by
  rw [tryLogins]
  refine (Call.exec_bind_ok (Call.exec_lift _)).trans ?_
  rw [h]
  rfl

theorem tryLogins_next {message : String}
    (h : (applyPassword A pg first role newPassword name version).exec (World.perform A) w = (.error message, w₁)) :
    (tryLogins A pg role newPassword name version (first :: rest) lastErr).exec A w =
      (tryLogins A pg role newPassword name version rest (some message)).exec A w₁ := by
  conv_lhs => unfold tryLogins
  refine (Call.exec_bind_ok (Call.exec_lift _)).trans ?_
  rw [h]

end Tries

/-- A target that answers is updated if one of the logins is the current one. -/
theorem tryLogins_exec {pg : PgRoleTarget} (hcheck : A.pgTargets.check pg = .ok ()) (role newPassword name : String)
    (version : Int32) {logins : List UserPass} {login : UserPass} (hmem : login ∈ logins) (lastErr : Option String)
    (h : w.Answers) (hlogin : w.passwords login.username = some login.password) :
    ∃ w', (tryLogins A pg role newPassword name version logins lastErr).exec A w = (.ok (), w') := by
  obtain ⟨hostport, hosts, hhosts⟩ := hosts_of_check hcheck
  induction logins generalizing w lastErr with
  | nil => cases hmem
  | cons first rest ih =>
      have happly : applyPassword A pg first role newPassword name version =
          tryHosts pg first role newPassword name version pg.hosts none := by
        rw [applyPassword, hcheck]
      by_cases hfirst : w.passwords first.username = some first.password
      · obtain ⟨w', haccepted⟩ :=
          tryHosts_accepted (A := A) pg role newPassword name version hostport hosts none h hfirst
        rw [← hhosts, ← happly] at haccepted
        exact ⟨w', tryLogins_first haccepted⟩
      · obtain ⟨message, hrefused⟩ := tryHosts_refused (A := A) pg role newPassword name version pg.hosts none h hfirst
        have hrest : login ∈ rest := (List.mem_cons.mp hmem).resolve_left fun heq => hfirst (heq ▸ hlogin)
        obtain ⟨w', hw'⟩ := @ih { w with attempts := w.attempts + pg.hosts.length } hrest
          (some message) (h.later _) hlogin
        rw [← happly] at hrefused
        exact ⟨w', (tryLogins_next hrefused).trans hw'⟩

/-- Logins that are not accepted, one after the other. -/
theorem tryLogins_refused (pg : PgRoleTarget) (role newPassword name : String)
    (version : Int32) {logins : List UserPass}
    (lastErr : Option String) (h : w.Answers)
    (hrefused : ∀ login ∈ logins, w.passwords login.username ≠ some login.password) :
    ∃ e w', (tryLogins A pg role newPassword name version logins lastErr).exec A w = (.error e, w') := by
  induction logins generalizing w lastErr with
  | nil => exact ⟨_, _, rfl⟩
  | cons first rest ih =>
      have happly : ∃ message n, (applyPassword A pg first role newPassword name version).exec (World.perform A) w =
          (.error message, { w with attempts := w.attempts + n }) := by
        unfold applyPassword
        cases A.pgTargets.check pg with
        | error message => exact ⟨message, 0, rfl⟩
        | ok u =>
            obtain ⟨message, hmessage⟩ := tryHosts_refused (A := A) pg role newPassword name version pg.hosts none h
              (hrefused first List.mem_cons_self)
            exact ⟨message, _, hmessage⟩
      obtain ⟨message, n, hfirst⟩ := happly
      obtain ⟨e, w', hrest⟩ := @ih { w with attempts := w.attempts + n } (some message) (h.later n)
        fun login hlogin => hrefused login (List.mem_cons_of_mem _ hlogin)
      exact ⟨e, w', (tryLogins_next hfirst).trans hrest⟩

/-! ## A target that does not answer -/

def World.Silent (w : World) : Prop := ∀ k, ∃ message, w.network k = .unreachable message

theorem silent_perform (h : w.Silent) (op : Op) :
    (w.perform A op).Silent ∧ (w.perform A op).passwords = w.passwords := by
  cases op with
  | read => exact ⟨h, rfl⟩
  | kms => exact ⟨h, rfl⟩
  | busy node value => exact ⟨h, rfl⟩
  | submit command basis sealing =>
      have hrecord : (w.record command sealing).network = w.network ∧
          (w.record command sealing).passwords = w.passwords := by
        cases command <;> exact ⟨rfl, rfl⟩
      refine commit_of (P := fun w' => w'.Silent ∧ w'.passwords = w.passwords)
        ⟨h, rfl⟩ fun t' _ => ⟨fun k => ?_, hrecord.2⟩
      rw [hrecord.1]
      exact h k
  | attempt a name version =>
      obtain ⟨message, hmessage⟩ := h w.attempts
      have hrefused : w.accepts a = false := by simp only [World.accepts, hmessage]
      simp only [World.perform, hrefused, Bool.false_eq_true, if_false]
      exact ⟨h, trivial⟩

theorem silent_exec {α : Type} (p : Proc World Op α) (h : w.Silent) :
    (p.exec (World.perform A) w).2.Silent ∧ (p.exec (World.perform A) w).2.passwords = w.passwords := by
  induction p generalizing w with
  | ret a => exact ⟨h, rfl⟩
  | act op next ih =>
      obtain ⟨hsilent, hpasswords⟩ := silent_perform (A := A) h op
      obtain ⟨hsilent', hpasswords'⟩ := ih w hsilent
      exact ⟨hsilent', hpasswords'.trans hpasswords⟩

theorem tryHosts_silent (pg : PgRoleTarget) (login : UserPass) (role newPassword name : String) (version : Int32)
    (hosts : List String) (lastErr : Option String) (h : w.Silent) :
    ∃ message w', (tryHosts pg login role newPassword name version hosts lastErr).exec (World.perform A) w =
      (.error message, w') := by
  induction hosts generalizing w lastErr with
  | nil => exact ⟨_, _, rfl⟩
  | cons hostport rest ih =>
      obtain ⟨a, _, hexec⟩ := tryHosts_exec (A := A) pg login role newPassword name version hostport rest lastErr w
      obtain ⟨message, hmessage⟩ := h w.attempts
      have hanswer : w.tryRotate a = .error ("connect " ++ World.endpoint a ++ ": " ++ message) := by
        simp only [World.tryRotate, hmessage]
      rw [hanswer] at hexec
      obtain ⟨last, w', hlast⟩ := ih (some ("connect " ++ World.endpoint a ++ ": " ++ message))
        (silent_perform (A := A) h (.attempt a name version)).1
      exact ⟨last, w', hexec.trans hlast⟩

theorem tryLogins_silent (pg : PgRoleTarget) (role newPassword name : String) (version : Int32) (logins : List UserPass)
    (lastErr : Option String) (h : w.Silent) :
    ∃ e w', (tryLogins A pg role newPassword name version logins lastErr).exec A w = (.error e, w') := by
  induction logins generalizing w lastErr with
  | nil => exact ⟨_, _, rfl⟩
  | cons first rest ih =>
      have happly : ∃ message w₁, (applyPassword A pg first role newPassword name version).exec (World.perform A) w =
          (.error message, w₁) := by
        unfold applyPassword
        cases A.pgTargets.check pg with
        | error message => exact ⟨message, w, rfl⟩
        | ok u => exact tryHosts_silent pg first role newPassword name version pg.hosts none h
      obtain ⟨message, w₁, hfirst⟩ := happly
      have hsilent := (silent_exec (A := A) (applyPassword A pg first role newPassword name version) h).1
      rw [hfirst] at hsilent
      obtain ⟨e, w', hrest⟩ := ih (some message) hsilent
      exact ⟨e, w', (tryLogins_next hfirst).trans hrest⟩

end Logins


/-! ## A rotation -/

section Rotation
variable {A : AppState} {ledger : Ledger} {w : World} {name : String} {t : Int64} {d : Draws} {secret : SecretRecord}
  {x : Sealing} {pg : PgRoleTarget} {new : UserPass} {logins : List UserPass}

/-- The logins that a rotation tries once its version is stored. -/
theorem selfLoginCandidates_exec (h : Agrees A (· ≤ t) ledger w) {life : Life} (hlife : ledger name = some life)
    (huniform : life.Uniform) (hformat : life.payload.format = .userpass) {previous : Int32} {p : Past} {i : Nat}
    (hpast : life.past[i]? = some p) (hprevious : previous.toInt = i + 1)
    (hrow : ((w.view A name).expiry previous).isSome) :
    ∃ out logins, RedbStore.liveVersions A.codec name t w.tables = .ok out ∧
      (selfLoginCandidates A name previous t).exec A w = (.ok logins, w) ∧
      ∀ login, login ∈ logins ↔
        ∃ k ∈ candidateVersions previous out, (w.view A name).payload k = some (.userpass login) := by
  obtain ⟨secret, hs, htells, _⟩ := h.stored hlife
  have hname := (h.vault.store.valid name secret hs).1
  obtain ⟨out, hout, hdescending, hmem⟩ := liveVersions_total h.vault.store name t
  -- every version that is tried is stored and holds a login
  have hlogin {k : Int32} {v : VersionRecord} {q : Payload} (hk : 1 ≤ k)
      (hv : versionAt A.codec w.tables (versionKey name k) = some v) (hq : (w.view A name).payload k = some q)
      (hqformat : q.format = life.payload.format) : ∃ v login, versionAt A.codec w.tables (versionKey name k) = some v ∧
        (w.view A name).payload k = some (.userpass login) ∧
        openVersion A name k v = .ok (A.userpass.encode login) := by
    have hopen := openVersion_of_view h.vault hname hk hv hq
    have hversion := (h.vault.store.owned_versionKey hname hk hv).1
    rw [hformat] at hqformat
    cases q with
    | value text => cases hqformat
    | userpass login => exact ⟨v, login, hv, hq, hversion ▸ hopen⟩
  have htried : ∀ k ∈ candidateVersions previous out, ∃ v login,
      versionAt A.codec w.tables (versionKey name k) = some v ∧
      (w.view A name).payload k = some (.userpass login) ∧ openVersion A name k v = .ok (A.userpass.encode login) := by
    intro k hk
    rw [candidateVersions_eq hdescending] at hk
    rcases List.mem_cons.mp hk with rfl | hk
    · obtain ⟨v, hv, _⟩ := Option.map_eq_some_iff.mp (Option.isSome_iff_exists.mp hrow).choose_spec
      have hone : 1 ≤ k := by
        rw [Int32.le_iff_toInt_le, hprevious, show (1 : Int32).toInt = 1 from rfl]
        omega
      exact hlogin hone hv (htells.past i p hpast k hprevious).1 (huniform p (List.mem_of_getElem? hpast))
    · obtain ⟨v, hv, rfl⟩ := List.mem_map.mp (List.mem_of_mem_filter (List.mem_of_mem_take hk))
      obtain ⟨_, hone, hstored, hall⟩ := (hmem v).mp hv
      obtain ⟨q, hq, hqformat, _⟩ := live_opens h huniform hs htells hone hstored hall
      exact hlogin hone hstored hq hqformat
  obtain ⟨logins, hload, hlogins⟩ := loadLogins_exec htried
  refine ⟨out, logins, hout, ?_, hlogins⟩
  have hread : (Call.read (RedbStore.liveVersions A.codec name t)).exec A w = (.ok out, w) := by
    rw [Call.exec_read, hout]
    rfl
  exact (Call.exec_bind_ok hread).trans hload

/-- The logins of a secret that is its own login. -/
theorem targetLogins_self (hself : ∀ other, pg.loginSecret = some other → other = name)
    (previous : Int32) (now : Int64) :
    targetLogins A name previous now pg = selfLoginCandidates A name previous now := by
  unfold targetLogins
  cases hother : pg.loginSecret with
  | none => rfl
  | some other => exact if_neg fun hne => hne (hself other hother)

/-- A rotation that its target does not accept. -/
theorem rotateFinish_fails (actor : String) (clientIp : Option String)
    {e : ApiError} {w₁ : World} (h : (rotateApply A name secret x d).run.exec (World.perform A) w = (.error e, w₁)) :
    ∃ w', (rotateFinish A actor clientIp name d secret x).exec A w = (.error e, w') := by
  have hlift : Call.exec A (ExceptT.lift (rotateApply A name secret x d).run) w = (.ok (.error e), w₁) := by
    rw [Call.exec_lift, h]
  rw [rotateFinish, Call.exec_bind_ok hlift]
  let w₂ := ((scheduleApplyRetry A name secret x.record.version d.now).exec A w₁).2
  have hretry : (scheduleApplyRetry A name secret x.record.version d.now).exec A w₁ = (.ok (), w₂) := rfl
  exact ⟨_, (Call.exec_bind_ok hretry).trans (Call.exec_bind_ok (audit_exec ..))⟩

/-- A rotation of a secret with a target that does not answer. -/
theorem rotateFinish_silent (actor : String) (clientIp : Option String)
    (htarget : secret.target = some (.pgReplica pg))
    (hpayload : x.payload = .userpass new) (h : w.Silent) :
    ∃ e w', (rotateFinish A actor clientIp name d secret x).exec A w = (.error e, w') := by
  have happly : ∃ e w₁, (rotateApply A name secret x d).run.exec (World.perform A) w = (.error e, w₁) := by
    unfold rotateApply
    rw [htarget, hpayload]
    rcases Call.exec_cases A (targetLogins A name secret.currentVersion d.now pg) (fun logins =>
        if logins.isEmpty then
          throw (.internal ("no stored credential to authenticate the pg_replica apply for '" ++ name ++ "'"))
        else tryLogins A pg (pg.role.getD new.username) new.password name x.record.version logins none) w with
      ⟨e, w₁, _, hexec⟩ | ⟨logins, w₁, hlogins, hexec⟩
    · exact ⟨e, w₁, hexec⟩
    · have hsilent := (silent_exec (A := A) (targetLogins A name secret.currentVersion d.now pg).run h).1
      rw [show (targetLogins A name secret.currentVersion d.now pg).run.exec (World.perform A) w = _
        from hlogins] at hsilent
      split_ifs at hexec
      · exact ⟨_, w₁, hexec⟩
      · obtain ⟨e, w₂, htry⟩ := tryLogins_silent (A := A) pg (pg.role.getD new.username) new.password name
          x.record.version logins none hsilent
        exact ⟨e, w₂, hexec.trans htry⟩
  obtain ⟨e, w₁, happly⟩ := happly
  obtain ⟨w', hw'⟩ := rotateFinish_fails actor clientIp happly
  exact ⟨e, w', hw'⟩

/-- A rotation succeeds if one of the logins it tries is the current one and the target answers. -/
theorem rotateFinish_recovers (actor : String) (clientIp : Option String)
    {new login : UserPass} (htarget : secret.target = some (.pgReplica pg))
    (hself : ∀ other, pg.loginSecret = some other → other = name) (hpayload : x.payload = .userpass new)
    (hlogins : (selfLoginCandidates A name secret.currentVersion d.now).exec A w = (.ok logins, w))
    (hmem : login ∈ logins) (hlogin : w.passwords login.username = some login.password)
    (hcheck : A.pgTargets.check pg = .ok ()) (hanswers : w.Answers) :
    ∃ value w', (rotateFinish A actor clientIp name d secret x).exec A w = (.ok value, w') := by
  obtain ⟨w₁, htry⟩ :=
    tryLogins_exec hcheck (pg.role.getD new.username) new.password name x.record.version hmem none hanswers hlogin
  have happly : (rotateApply A name secret x d).run.exec (World.perform A) w = (.ok (), w₁) := by
    unfold rotateApply
    rw [htarget, hpayload]
    dsimp only
    unfold applyTarget
    rw [targetLogins_self hself]
    refine (Call.exec_bind_ok hlogins).trans ?_
    rw [if_neg fun hempty => List.ne_nil_of_mem hmem (List.isEmpty_iff.mp hempty)]
    exact htry
  have hlift : Call.exec A (ExceptT.lift (rotateApply A name secret x d).run) w = (.ok (.ok ()), w₁) := by
    rw [Call.exec_lift, happly]
  rw [rotateFinish]
  exact ⟨_, _, (Call.exec_bind_ok hlift).trans (Call.exec_bind_ok (audit_exec ..))⟩

/-- A rotation that tries no login the target accepts. -/
theorem rotateFinish_refused (actor : String) (clientIp : Option String)
    (htarget : secret.target = some (.pgReplica pg))
    (hself : ∀ other, pg.loginSecret = some other → other = name) (hpayload : x.payload = .userpass new)
    (hlogins : (selfLoginCandidates A name secret.currentVersion d.now).exec A w = (.ok logins, w))
    (hrefused : ∀ login ∈ logins, w.passwords login.username ≠ some login.password) (hanswers : w.Answers) :
    ∃ e w', (rotateFinish A actor clientIp name d secret x).exec A w = (.error e, w') := by
  have happly : ∃ e w₁, (rotateApply A name secret x d).run.exec (World.perform A) w = (.error e, w₁) := by
    unfold rotateApply
    rw [htarget, hpayload]
    dsimp only
    unfold applyTarget
    rw [targetLogins_self hself]
    by_cases hempty : logins.isEmpty = true
    · refine ⟨.internal ("no stored credential to authenticate the pg_replica apply for '" ++ name ++ "'"), w,
        (Call.exec_bind_ok hlogins).trans ?_⟩
      rw [if_pos hempty]
      rfl
    · obtain ⟨e, w₁, htry⟩ := tryLogins_refused (A := A) pg
        (pg.role.getD new.username) new.password name x.record.version none hanswers hrefused
      refine ⟨e, w₁, (Call.exec_bind_ok hlogins).trans ?_⟩
      rw [if_neg hempty]
      exact htry
  obtain ⟨e, w₁, herror⟩ := happly
  exact ⟨e, rotateFinish_fails actor clientIp herror⟩

end Rotation

end HyperionVault
