import HyperionVault.Service.Candidates

/-!
# Rotations whose target does not answer

A rotation commits a new version before it sends it to the target, so each failed attempt on the target moves
the current version one further from the one the target accepts.

* `Life.rotations` : the versions that a row of rotations commits;
* `first_tried_iff`, `login_tried` : when the version before them is tried, and its login;
* `recovery_after_failures` : rotations after failed ones.
-/

namespace HyperionVault
open Lib

/-! ## Rotations in a row -/

/-- The secret after rotations with these draws. -/
def Life.rotations (life : Life) (draws : List Draws) : Life :=
  draws.foldl (fun life d => life.rotate d.token d.now) life

namespace Life
variable (life : Life)

theorem rotations_concat (draws : List Draws) (d : Draws) :
    life.rotations (draws ++ [d]) = (life.rotations draws).rotate d.token d.now := by
  rw [rotations, List.foldl_concat]
  rfl

/-- What a rotation leaves alone, rotations do. -/
theorem keeps_rotations {α : Type} {f : Life → α} (h : ∀ life token now, f (life.rotate token now) = f life)
    (draws : List Draws) : f (life.rotations draws) = f life := by
  induction draws using List.reverseRecOn with
  | nil => rfl
  | append_singleton draws d ih =>
      rw [rotations_concat, h]
      exact ih

theorem grace_rotations (draws : List Draws) : (life.rotations draws).grace = life.grace :=
  life.keeps_rotations (fun _ _ _ => rfl) draws

theorem kind_rotations (draws : List Draws) : (life.rotations draws).kind = life.kind :=
  life.keeps_rotations (fun _ _ _ => rfl) draws

theorem target_rotations (draws : List Draws) : (life.rotations draws).target = life.target :=
  life.keeps_rotations (fun _ _ _ => rfl) draws

theorem uniform_rotations {life : Life} (h : life.Uniform) (draws : List Draws) : (life.rotations draws).Uniform := by
  induction draws using List.reverseRecOn with
  | nil => exact h
  | append_singleton draws d ih =>
      rw [rotations_concat]
      exact uniform_supersede ih (Payload.format_rotated _ _) d.now

theorem length_past_rotations (draws : List Draws) :
    (life.rotations draws).past.length = life.past.length + draws.length := by
  induction draws using List.reverseRecOn with
  | nil => rfl
  | append_singleton draws d ih =>
      rw [rotations_concat, List.length_append, List.length_singleton, ← Nat.add_assoc, ← ih]
      simp [Life.rotate, Life.supersede]

/-- What the rotation at place `i` supersedes. -/
theorem past_rotations (draws : List Draws) {i : Nat} {d : Draws} (hd : draws[i]? = some d) :
    (life.rotations draws).past[life.past.length + i]? =
      some ⟨(life.rotations (draws.take i)).payload, d.now, life.grace⟩ := by
  induction draws using List.reverseRecOn with
  | nil => cases hd
  | append_singleton draws last ih =>
      have hlength := life.length_past_rotations draws
      rw [rotations_concat]
      simp only [Life.rotate, Life.supersede]
      rcases Nat.lt_or_ge i draws.length with hi | hi
      · rw [List.getElem?_append_left hi] at hd
        rw [List.getElem?_append_left (by omega), List.take_append_of_le_length hi.le]
        exact ih hd
      · have hlt := (List.getElem?_eq_some_iff.mp hd).1
        rw [List.length_append, List.length_singleton] at hlt
        obtain rfl : i = draws.length := by omega
        rw [List.getElem?_concat_length] at hd
        cases hd
        rw [← hlength, List.getElem?_concat_length, List.take_left, grace_rotations]

/-- The password is the one that was generated last. -/
theorem payload_rotations {login : UserPass} (h : life.payload = .userpass login) (draws : List Draws) :
    (life.rotations draws).payload =
      .userpass ⟨login.username, (draws.getLast?.map Draws.token).getD login.password⟩ := by
  induction draws using List.reverseRecOn with
  | nil => exact h
  | append_singleton draws d ih =>
      rw [rotations_concat, List.getLast?_concat]
      simp only [Life.rotate, Life.supersede, ih, Payload.rotated]
      rfl

end Life

theorem foldl_after_rotations {ledger : Ledger} {name : String} {life : Life} (h : ledger name = some life)
    (actor : String) (clientIp : Option String) (draws : List Draws) :
    (draws.map (ServiceCall.rotate actor clientIp name)).foldl Ledger.after ledger name =
      some (life.rotations draws) := by
  induction draws generalizing ledger life with
  | nil => exact h
  | cons d rest ih =>
      have hd : ledger.after (.rotate actor clientIp name d) name = some (life.rotate d.token d.now) := by
        rw [Ledger.after, Function.update_self, h, Option.map_some]
      exact ih hd

/-! ## The next rotation -/

/-- Rotations that commit their version and then fail on the target. -/
def FailedRotations (A : AppState) (actor : String) (clientIp : Option String) (name : String) :
    World → List Draws → Prop
  | _, [] => True
  | w, d :: rest =>
      (∃ e, ((rotate A actor clientIp name d).exec A w).1 = .error e) ∧
      (ServiceCall.rotate actor clientIp name d).commits A w = true ∧
      FailedRotations A actor clientIp name ((ServiceCall.rotate actor clientIp name d).leaves A w) rest

theorem FailedRotations.committed {A : AppState} {actor name : String} {clientIp : Option String} {w : World}
    {fails : List Draws} (h : FailedRotations A actor clientIp name w fails) :
    committed A w (fails.map (.rotate actor clientIp name)) = fails.map (.rotate actor clientIp name) := by
  induction fails generalizing w with
  | nil => rfl
  | cons d rest ih =>
      obtain ⟨_, hcommits, hrest⟩ := h
      rw [List.map_cons, HyperionVault.committed, if_pos hcommits, ih hrest]

theorem Agrees.network {A : AppState} {S : Int64 → Prop} {ledger : Ledger} {w : World} (h : Agrees A S ledger w)
    (network : Nat → Reach) : Agrees A S ledger { w with network := network } :=
  ⟨⟨h.vault.store, h.vault.sealed, h.vault.row, h.vault.fresh, h.vault.past⟩, h.sees⟩

section Next
variable {A : AppState} {S : Int64 → Prop} {ledger : Ledger} {w w₁ : World} {name : String}

/-- A rotation whose command is committed. -/
theorem rotateCommit_exec_ok (h : Agrees A S ledger w) (actor : String) (clientIp : Option String) {d : Draws}
    {secret : SecretRecord} {x : Sealing} (hexec : (rotateCommit A name d).exec A w = (.ok (secret, x), w₁)) :
    ∃ life, ledger name = some life ∧ secretAt A.codec w.tables name = some secret ∧
      secret.currentVersion.toInt = life.version ∧ secret.target = life.target ∧
      x.payload = life.payload.rotated d.token ∧
      x.record.version.toInt = secret.currentVersion.toInt + 1 ∧
      Agrees A S (ledger.after (.rotate actor clientIp name d)) w₁ ∧
      (w₁.view A name).expiry secret.currentVersion = some (some (graceExpiryUnix d.now secret.graceSecs)) ∧
      w₁ = { w.withSealing name x.record.version (some x) with tables := w₁.tables } := by
  have hguards : (rotateCommit A name d).Guards A (VaultInv A (unwrapping A)) Later (.rotate actor clientIp name d) w
      (Rotated A (VaultInv A (unwrapping A)) Later name) := rotateCommit_guards h.vault rfl
  have hvault : VaultInv A (unwrapping A) ((rotateCommit A name d).exec A w).2 :=
    (Proc.exec_guards hguards h.vault fun _ _ hi hop =>
      unwrapping_perform (fun hr => hr) hi hop (currentRewrap_of_not_pass rfl hop)).1
  have hsees : Sees A S (ledger.after (.rotate actor clientIp name d)) w₁ := by
    rcases rotate_sees h actor clientIp d with ⟨e, w', herror, _⟩ | ⟨r, w', hok, hsees⟩
    · cases hexec.symm.trans herror
    · cases hexec.symm.trans hok
      exact hsees
  rw [hexec] at hvault
  obtain ⟨s, w₂, hread, hexec⟩ := Call.exec_bind_eq_ok hexec
  obtain ⟨hs, rfl⟩ := readSecret_exec_ok hread
  obtain ⟨life, hlife, htells, hkind, hformat, hgrace, htarget⟩ := h.life hs
  split_ifs at hexec
  · cases hexec
  · obtain ⟨number, w₃, hoption, hexec⟩ := Call.exec_bind_eq_ok hexec
    obtain ⟨hnumber, rfl⟩ := Call.ofOption_exec_ok hoption
    obtain ⟨payload, w₄, hpayload, hexec⟩ := Call.exec_bind_eq_ok hexec
    obtain ⟨rfl, rfl⟩ := rotatePayload_exec_ok h hs htells hformat hpayload
    obtain ⟨y, w₅, hseal, hexec⟩ := Call.exec_bind_eq_ok hexec
    obtain ⟨hy, hypayload, rfl⟩ := sealVersion_exec_ok hseal
    obtain ⟨_, w₆, hsubmit, hexec⟩ := Call.exec_bind_eq_ok hexec
    rcases submit_exec_cases A (rotateCommand name s d.now y.record) (.record s) (some y) w with
      ⟨e, herror⟩ | ⟨t', hok, hdone⟩
    · cases hsubmit.symm.trans herror
    · cases hsubmit.symm.trans hdone
      cases hexec
      have hversion := hy.version
      subst hversion
      obtain ⟨_, _, _, _, _, _, hexpiries, _⟩ :=
        view_putVersion h.vault.store ⟨succ_of_nextVersion hnumber, hy.unexpired, hy.aad, rfl⟩ hok
      have hpos := (h.vault.store.valid name secret hs).2
      refine ⟨life, hlife, hs, htells.count, htarget, hypayload, toInt_checkedSucc hnumber, ⟨hvault, hsees⟩, ?_, rfl⟩
      exact (hexpiries secret.currentVersion hpos).trans (if_pos rfl)

/-- A rotation with the draws `d` after failed rotations `fails`, when its version has been stored. -/
structure Retry (A : AppState) (name : String) (life : Life) (fails : List Draws) (d : Draws) (secret : SecretRecord)
    (x : Sealing) (w : World) : Prop where
  agrees : ∃ ledger, Agrees A (· ≤ d.now) ledger w ∧ ledger name = some (life.rotations (fails ++ [d]))
  uniform : (life.rotations (fails ++ [d])).Uniform
  previous : secret.currentVersion.toInt = life.version + fails.length
  row : ((w.view A name).expiry secret.currentVersion).isSome
  target : secret.target = life.target
  payload : x.payload = (life.rotations fails).payload.rotated d.token

/-- Failed rotations leave the versions that they committed. -/
theorem FailedRotations.agrees (h : Agrees A S ledger w) {life : Life}
    (hlife : ledger name = some life) {actor : String}
    {clientIp : Option String} {fails : List Draws} (hfails : FailedRotations A actor clientIp name w fails) :
    ∃ ledger', Agrees A S ledger' (System.serial (World.perform A) (ServiceCall.body A) w
      (fails.map (.rotate actor clientIp name))) ∧ ledger' name = some (life.rotations fails) := by
  have hfailed := agrees_serial (fails.map (.rotate actor clientIp name)) (fun now hnow => by simp at hnow) h
  rw [hfails.committed] at hfailed
  exact ⟨_, hfailed, foldl_after_rotations hlife actor clientIp fails⟩

theorem next_rotation {life : Life} {fails : List Draws} {d : Draws} (h : Agrees A (· ≤ d.now) ledger w)
    (hlife : ledger name = some (life.rotations fails)) (huniform : life.Uniform) {secret : SecretRecord} {x : Sealing}
    (hnext : (rotateCommit A name d).exec A w = (.ok (secret, x), w₁)) : Retry A name life fails d secret x w₁ := by
  -- the caller changes nothing in the ledger
  obtain ⟨last, hlast, _, hcurrent, htarget, hpayload, _, hagrees, hrow, _⟩ := rotateCommit_exec_ok h name none hnext
  obtain rfl : life.rotations fails = last := Option.some.inj (hlife.symm.trans hlast)
  have hlength := life.length_past_rotations fails
  refine ⟨⟨_, hagrees, ?_⟩, Life.uniform_rotations huniform _, ?_, ?_, ?_, hpayload⟩
  · rw [Ledger.after, Function.update_self, hlast, Option.map_some, Life.rotations_concat]
  · unfold Life.version at hcurrent ⊢
    push_cast
    omega
  · rw [hrow]
    rfl
  · exact htarget.trans (life.target_rotations fails)

end Next

/-! ## Which login is tried -/

/-- No two of the versions that these rotations superseded are live. -/
def NoTwoLive (t grace : Int64) (rotations : List Draws) : Prop :=
  rotations.Pairwise fun f f' => ¬(t < graceExpiryUnix f.now grace ∧ t < graceExpiryUnix f'.now grace)

section Tried
variable {A : AppState} {ledger : Ledger} {w : World} {name : String} {life : Life}
  {login : UserPass} {draws : List Draws}
  {t : Int64} {k : Int32} {i : Nat}

/-- Whether a version that one of the rotations superseded is live. -/
theorem live_rotation_iff (h : Agrees A (· ≤ t) ledger w) (hlife : ledger name = some (life.rotations draws))
    (hk : k.toInt = life.version + i) {f : Draws} (hf : draws[i]? = some f) :
    (∃ v, v.version = k ∧ 1 ≤ v.version ∧ versionAt A.codec w.tables (versionKey name v.version) = some v ∧
      v.expiresAt.all (t < ·) = true) ↔ t < graceExpiryUnix f.now life.grace := by
  obtain ⟨secret, hs, htells, _⟩ := h.stored hlife
  have hlength := life.length_past_rotations draws
  have hlt := (List.getElem?_eq_some_iff.mp hf).1
  have hpast := life.past_rotations draws hf
  unfold Life.version at hk
  rw [live_iff h hs htells k]
  constructor
  · rintro (hcurrent | ⟨j, p, hp, hj, hlive⟩)
    · unfold Life.version at hcurrent
      omega
    · obtain rfl : j = life.past.length + i := by omega
      rw [hpast] at hp
      cases hp
      exact hlive
  · exact fun hlive => Or.inr ⟨life.past.length + i, _, hpast, by push_cast; omega, hlive⟩

/-- The login of a version that the rotations superseded or wrote. -/
theorem payload_rotation (h : Agrees A (· ≤ t) ledger w) (hlife : ledger name = some (life.rotations draws))
    (hlogin : life.payload = .userpass login) (hk : k.toInt = life.version + i) (hi : i ≤ draws.length) :
    (w.view A name).payload k = some (.userpass ⟨login.username,
      ((draws.take i).getLast?.map Draws.token).getD login.password⟩) := by
  obtain ⟨secret, hs, htells, _⟩ := h.stored hlife
  have hlength := life.length_past_rotations draws
  have hcount := htells.count
  rw [← life.payload_rotations hlogin]
  unfold Life.version at hk hcount
  rcases Nat.lt_or_ge i draws.length with hlt | hge
  · have hpast := life.past_rotations draws (List.getElem?_eq_getElem hlt)
    exact (htells.past _ _ hpast k (by push_cast; omega)).1
  · obtain rfl : i = draws.length := le_antisymm hi hge
    obtain rfl : k = secret.currentVersion := Int32.toInt_inj.mp (by omega)
    rw [List.take_length]
    exact htells.current

/-- A version after the first holds a password that one of the rotations generated. -/
theorem repeats_of_payload (h : Agrees A (· ≤ t) ledger w) (hlife : ledger name = some (life.rotations draws))
    (hlogin : life.payload = .userpass login) (hk : k.toInt = life.version + (i + 1 : Nat)) (hi : i < draws.length)
    (hsame : (w.view A name).payload k = some (.userpass login)) : ∃ f ∈ draws, f.token = login.password := by
  have hpayload := payload_rotation h hlife hlogin hk hi
  rw [List.take_add_one, List.getElem?_eq_getElem hi, Option.toList_some, List.getLast?_concat] at hpayload
  have hpassword : draws[i].token = login.password :=
    congrArg UserPass.password (Payload.userpass.inj (Option.some.inj (hpayload.symm.trans hsame)))
  exact ⟨draws[i], List.getElem_mem hi, hpassword⟩

/-- The newest live version is the current one; the others are at most the one it superseded. -/
theorem live_head (h : Agrees A (· ≤ t) ledger w) (hlife : ledger name = some life) {out : List VersionRecord}
    (hdescending : out.Pairwise fun a b => b.version < a.version)
    (hmem : ∀ v, v ∈ out ↔ isValidSecretName name = true ∧ 1 ≤ v.version ∧
      versionAt A.codec w.tables (versionKey name v.version) = some v ∧ v.expiresAt.all (t < ·) = true) :
    ∃ next live, out = next :: live ∧ next.version.toInt = life.version ∧
      ∀ v ∈ live, v.version.toInt < life.version := by
  obtain ⟨secret, hs, htells, _⟩ := h.stored hlife
  have hname := (h.vault.store.valid name secret hs).1
  have hle (v : VersionRecord) (hv : v ∈ out) : v.version.toInt ≤ life.version := by
    rcases (live_iff h hs htells v.version).mp ⟨v, rfl, ((hmem v).mp hv).2⟩ with hcurrent | ⟨i, p, hp, hi, _⟩
    · exact hcurrent.le
    · have hlt := (List.getElem?_eq_some_iff.mp hp).1
      unfold Life.version
      omega
  obtain ⟨c, hc, hrow⟩ := (live_iff h hs htells secret.currentVersion).mpr (Or.inl htells.count)
  have hcmem : c ∈ out := (hmem c).mpr ⟨hname, hrow⟩
  have hcount : c.version.toInt = life.version := by
    rw [hc]
    exact htells.count
  cases out with
  | nil => cases hcmem
  | cons next live =>
      obtain ⟨habove, _⟩ := List.pairwise_cons.mp hdescending
      have hnext : next.version.toInt = life.version := by
        have hlast := hle next List.mem_cons_self
        rcases List.mem_cons.mp hcmem with rfl | hclive
        · exact hcount
        · have hlt := Int32.lt_iff_toInt_lt.mp (habove c hclive)
          omega
      refine ⟨next, live, rfl, hnext, fun v hv => ?_⟩
      have hlt := Int32.lt_iff_toInt_lt.mp (habove v hv)
      omega

/-- The version before the rotations `fails` is tried exactly if no two versions between it and the last are live. -/
theorem first_tried_iff {fails : List Draws} {d : Draws} {previous u : Int32} {next : VersionRecord}
    {live : List VersionRecord} (h : Agrees A (· ≤ t) ledger w)
    (hlife : ledger name = some (life.rotations (fails ++ [d])))
    (hdescending : (next :: live).Pairwise fun a b => b.version < a.version)
    (hmem : ∀ v, v ∈ next :: live ↔ isValidSecretName name = true ∧ 1 ≤ v.version ∧
      versionAt A.codec w.tables (versionKey name v.version) = some v ∧ v.expiresAt.all (t < ·) = true)
    (hname : isValidSecretName name = true) (hnext : next.version.toInt = life.version + fails.length + 1)
    (hprevious : previous.toInt = life.version + fails.length) (hu : u.toInt = life.version)
    (hlive : ∀ f, fails.head? = some f → t < graceExpiryUnix f.now life.grace) :
    u ∈ candidateVersions previous (next :: live) ↔ NoTwoLive t life.grace fails.tail := by
  cases fails with
  | nil =>
      obtain rfl : u = previous := Int32.toInt_inj.mp (by rw [hu, hprevious]; simp)
      rw [candidateVersions_eq hdescending]
      exact ⟨fun _ => List.Pairwise.nil, fun _ => List.mem_cons_self⟩
  | cons first rest =>
      obtain ⟨habove, _⟩ := List.pairwise_cons.mp hdescending
      rw [List.length_cons] at hnext hprevious
      push_cast at hnext hprevious
      have hrow {k : Int32} {i : Nat} {f : Draws} (hk : k.toInt = life.version + i)
          (hf : (first :: rest)[i]? = some f) :
          (∃ v ∈ live, v.version = k) ↔ t < graceExpiryUnix f.now life.grace := by
        have hi := (List.getElem?_eq_some_iff.mp hf).1
        have hf' : (first :: rest ++ [d])[i]? = some f := by
          rw [List.getElem?_append_left hi]
          exact hf
        rw [List.length_cons] at hi
        rw [← live_rotation_iff h hlife hk hf']
        constructor
        · rintro ⟨v, hv, rfl⟩
          exact ⟨v, rfl, ((hmem v).mp (List.mem_cons_of_mem _ hv)).2⟩
        · rintro ⟨v, rfl, hv⟩
          rcases List.mem_cons.mp ((hmem v).mpr ⟨hname, hv⟩) with rfl | hv
          · omega
          · exact ⟨v, hv, rfl⟩
      have hlt : u < previous := by
        rw [Int32.lt_iff_toInt_lt]
        omega
      have hne : next.version ≠ previous := fun heq => by
        rw [heq] at hnext
        omega
      have hbelow (v : VersionRecord) (hv : v ∈ live) : v.version ≤ previous := by
        have hvlt := Int32.lt_iff_toInt_lt.mp (habove v hv)
        rw [Int32.le_iff_toInt_le]
        omega
      have hfirst := (hrow (k := u) (i := 0) (by rw [hu]; simp) rfl).mpr (hlive first rfl)
      rw [mem_candidateVersions hdescending hne hbelow hfirst hlt, List.tail_cons, NoTwoLive, List.pairwise_iff_getElem]
      constructor
      · rintro hone i j hi hj hij ⟨hlivei, hlivej⟩
        obtain ⟨a, ha⟩ := exists_toInt_eq previous (n := life.version + (i + 1)) (by push_cast; omega)
        obtain ⟨b, hb⟩ := exists_toInt_eq previous (n := life.version + (j + 1)) (by push_cast; omega)
        obtain ⟨v, hv, rfl⟩ := (hrow (k := a) (i := i + 1) (by rw [ha]; push_cast; rfl)
          (List.getElem?_eq_getElem (l := first :: rest) (by simpa using hi))).mpr hlivei
        obtain ⟨v', hv', rfl⟩ := (hrow (k := b) (i := j + 1) (by rw [hb]; push_cast; rfl)
          (List.getElem?_eq_getElem (l := first :: rest) (by simpa using hj))).mpr hlivej
        have hsame := congrArg Int32.toInt (hone v hv v' hv' (Int32.lt_iff_toInt_lt.mpr (by omega))
          (Int32.lt_iff_toInt_lt.mpr (by omega)) (Int32.lt_iff_toInt_lt.mpr (by omega))
          (Int32.lt_iff_toInt_lt.mpr (by omega)))
        omega
      · intro hone a ha b hb hua hub hap hbp
        have hplace {v : VersionRecord} (hv : v ∈ live) (huv : u < v.version) (hvp : v.version < previous) :
            ∃ i, ∃ hi : i < rest.length, v.version.toInt = life.version + (i + 1 : Nat) ∧
              t < graceExpiryUnix rest[i].now life.grace := by
          rw [Int32.lt_iff_toInt_lt] at huv hvp
          obtain ⟨i, hi⟩ : ∃ i : Nat, v.version.toInt = life.version + (i + 1 : Nat) :=
            ⟨(v.version.toInt - life.version - 1).toNat, by push_cast; omega⟩
          have hlt : i < rest.length := by
            push_cast at hi
            omega
          refine ⟨i, hlt, hi, (hrow hi ?_).mp ⟨v, hv, rfl⟩⟩
          rw [List.getElem?_cons_succ]
          exact List.getElem?_eq_getElem hlt
        obtain ⟨i, hi, ha', hlivei⟩ := hplace ha hua hap
        obtain ⟨j, hj, hb', hlivej⟩ := hplace hb hub hbp
        rcases lt_trichotomy i j with hij | rfl | hij
        · exact absurd ⟨hlivei, hlivej⟩ (hone i j hi hj hij)
        · exact Int32.toInt_inj.mp (ha'.trans hb'.symm)
        · exact absurd ⟨hlivej, hlivei⟩ (hone j i hj hi hij)

/-- When the login of the version before failed rotations is tried. -/
theorem login_tried {fails : List Draws} {d : Draws} {secret : SecretRecord} {x : Sealing}
    (h : Retry A name life fails d secret x w) (hlogin : life.payload = .userpass login)
    (hlive : ∀ f, fails.head? = some f → d.now < graceExpiryUnix f.now life.grace) :
    ∃ logins, (selfLoginCandidates A name secret.currentVersion d.now).exec A w = (.ok logins, w) ∧
      (NoTwoLive d.now life.grace fails.tail → login ∈ logins) ∧
      ((∀ f ∈ fails ++ [d], f.token ≠ login.password) → login ∈ logins → NoTwoLive d.now life.grace fails.tail) ∧
      ∀ l ∈ logins, ∃ k : Int32, 0 < k.toInt ∧ k.toInt ≤ life.version + fails.length + 1 ∧
        (w.view A name).payload k = some (.userpass l) := by
  obtain ⟨⟨ledger, hagrees, hlife⟩, huniform, hprevious, hrow, _, _⟩ := h
  have hlength := life.length_past_rotations (fails ++ [d])
  rw [List.length_append, List.length_singleton] at hlength
  have hlast : (fails ++ [d])[fails.length]? = some d := List.getElem?_concat_length
  have hformat : (life.rotations (fails ++ [d])).payload.format = .userpass := by
    rw [life.payload_rotations hlogin]
    rfl
  obtain ⟨stored, hs, _⟩ := hagrees.stored hlife
  have hname := (hagrees.vault.store.valid name stored hs).1
  obtain ⟨out, hout, hdescending, hmem⟩ := liveVersions_total hagrees.vault.store name d.now
  obtain ⟨out', logins, hout', hexec, hlogins⟩ := selfLoginCandidates_exec hagrees hlife huniform hformat
    (life.past_rotations (fails ++ [d]) hlast) (by unfold Life.version at hprevious; push_cast; omega) hrow
  obtain rfl : out = out' := Except.ok.inj (hout.symm.trans hout')
  obtain ⟨next, live, rfl, hnext, hbelow⟩ := live_head hagrees hlife hdescending hmem
  have hversion : ((life.rotations (fails ++ [d])).version : Int) = life.version + fails.length + 1 := by
    unfold Life.version
    push_cast
    omega
  rw [hversion] at hnext
  obtain ⟨u, hu⟩ := exists_toInt_eq secret.currentVersion (n := life.version) (by omega)
  have htried := first_tried_iff hagrees hlife hdescending hmem hname hnext hprevious hu hlive
  have hpayload : (w.view A name).payload u = some (.userpass login) :=
    payload_rotation (i := 0) hagrees hlife hlogin (by rw [hu]; simp) (Nat.zero_le _)
  have hbounds {k : Int32} (hk : k ∈ candidateVersions secret.currentVersion (next :: live)) :
      0 < k.toInt ∧ k.toInt ≤ life.version + fails.length + 1 := by
    rw [candidateVersions_eq hdescending] at hk
    rcases List.mem_cons.mp hk with rfl | hk
    · unfold Life.version at hprevious ⊢
      omega
    · obtain ⟨v, hv, rfl⟩ := List.mem_map.mp (List.mem_of_mem_filter (List.mem_of_mem_take hk))
      have hone := Int32.le_iff_toInt_le.mp ((hmem v).mp hv).2.1
      rw [show (1 : Int32).toInt = 1 from rfl] at hone
      rcases List.mem_cons.mp hv with rfl | hv
      · omega
      · have hlt := hbelow v hv
        omega
  refine ⟨logins, hexec, fun htwo => (hlogins login).mpr ⟨u, htried.mpr htwo, hpayload⟩, fun hfresh hin => ?_,
    fun l hl => ?_⟩
  · obtain ⟨k, hk, hsame⟩ := (hlogins login).mp hin
    rw [← htried]
    obtain ⟨_, hkle⟩ := hbounds hk
    rcases lt_trichotomy k.toInt u.toInt with hlt | heq | hgt
    · -- an older version is tried, so the newer ones are
      have hne : k ≠ secret.currentVersion := fun heq => by
        rw [heq] at hlt
        omega
      cases fails with
      | nil => exact htried.mpr List.Pairwise.nil
      | cons first rest =>
          obtain ⟨v, hv, hrow⟩ := (live_rotation_iff (i := 0) hagrees hlife (by rw [hu]; simp) rfl).mpr
            (hlive first rfl)
          exact candidateVersions_upward hdescending hk hne ⟨v, (hmem v).mpr ⟨hname, hrow⟩, hv⟩
            (Int32.lt_iff_toInt_lt.mpr hlt)
    · rw [← Int32.toInt_inj.mp heq]
      exact hk
    · -- a newer version has another password
      obtain ⟨i, hi⟩ : ∃ i : Nat, k.toInt = life.version + (i + 1 : Nat) :=
        ⟨(k.toInt - life.version - 1).toNat, by push_cast; omega⟩
      have hlt : i < (fails ++ [d]).length := by
        rw [List.length_append, List.length_singleton]
        push_cast at hi
        omega
      obtain ⟨f, hf, htoken⟩ := repeats_of_payload hagrees hlife hlogin hi hlt hsame
      exact absurd htoken (hfresh f hf)
  · obtain ⟨k, hk, hkpayload⟩ := (hlogins l).mp hl
    obtain ⟨hpos, hle⟩ := hbounds hk
    exact ⟨k, hpos, hle, hkpayload⟩

end Tried

/-! ## Recovery -/

theorem noTwoLive_of_length {t grace : Int64} {fails : List Draws} (h : fails.length ≤ 2) :
    NoTwoLive t grace fails.tail := by
  match fails, h with
  | [], _ => exact List.Pairwise.nil
  | [_], _ => exact List.Pairwise.nil
  | [_, _], _ => exact List.pairwise_singleton _ _

/-- With a clock that never goes back the versions between live at least as long as the first. -/
theorem length_of_noTwoLive {t grace : Int64} {fails : List Draws} (hclock : fails.Pairwise fun f f' => f.now ≤ f'.now)
    (hlive : ∀ f, fails.head? = some f → t < graceExpiryUnix f.now grace) (h : NoTwoLive t grace fails.tail) :
    fails.length ≤ 2 := by
  match fails, hclock, hlive, h with
  | [], _, _, _ => simp
  | [_], _, _, _ => simp
  | [_, _], _, _, _ => simp
  | first :: f :: f' :: rest, hclock, hlive, h =>
      have hfirst := (List.pairwise_cons.mp hclock).1
      have hlater (g : Draws) (hg : g ∈ f :: f' :: rest) : t < graceExpiryUnix g.now grace :=
        lt_of_lt_of_le (hlive first rfl) (satAdd_le_satAdd_right (hfirst g hg) grace)
      have htwo := (List.pairwise_cons.mp h).1 f' List.mem_cons_self
      exact absurd ⟨hlater f List.mem_cons_self, hlater f' (by simp)⟩ htwo

/-! ## A target that does not answer -/

section Unanswered
variable {C : Codec} {S : Int64 → Prop} {ledger : Ledger} {w : World} {name : String} {life : Life} {login : UserPass}

/-- A rotation of a login commits its version. -/
theorem rotate_login_exec (h : Agrees (nodeWith C) S ledger w) (hlife : ledger name = some life)
    (hkind : life.kind = .automatic) (hlogin : life.payload = .userpass login) (hroom : life.version < 2 ^ 31 - 1)
    (hstate : w.tables.kmsRewrap = .empty) (now : Int64) (key : Nat) (token : String) :
    ∃ secret x w₁, (rotateCommit (nodeWith C) name (drawsOf now key token)).exec (nodeWith C) w =
      (.ok (secret, x), w₁) := by
  obtain ⟨secret, hs, htells, hskind, hformat, _⟩ := h.stored hlife
  obtain ⟨hname, hpos⟩ := h.vault.store.valid name secret hs
  obtain ⟨prev, hprev, hnone⟩ := h.vault.store.current name secret hs
  have hversion := (h.vault.store.owned_versionKey hname hpos hprev).1
  have hcount := htells.count
  have hnext : nextVersion secret.currentVersion = some (secret.currentVersion + 1) := nextVersion_of_lt (by omega)
  obtain ⟨hone, hne⟩ := versionKey_nextVersion hname hpos hnext
  have hopen : openUserpass (nodeWith C) name secret.currentVersion prev = .ok login := by
    have hbytes := openVersion_of_view h.vault hname hpos hprev htells.current
    rw [hversion, hlogin] at hbytes
    refine bind_eq_ok.mpr ⟨_, hbytes, ?_⟩
    rw [Payload.bytes, decodeUserpass, (nodeWith C).userpass.decode_encode]
  have hpayload : (rotatePayload (nodeWith C) name secret (drawsOf now key token)).Runs
      (nodeWith C) (fun _ _ => True) 1 w
      (.userpass ⟨login.username, token⟩) w := by
    unfold rotatePayload
    rw [hformat, hlogin]
    exact runs_bind (n := 1) (m := 0) (loadUserpass_runs trivial hprev hopen) (pure_runs _)
  have hruns := rotateCommit_runs trivial hs (hskind.trans hkind) hnext hpayload
    (seal_runs trivial trivial hstate) trivial
    (rotateCommand_eq secret now _ hname hone hs rfl hne hprev hnone)
  exact ⟨_, _, _, Proc.exec_of_reaches hruns⟩

/-- Rotations of a login while its target does not answer: each commits its version and fails. -/
theorem silent_rotations (actor : String) (clientIp : Option String) {pg : PgRoleTarget} {fails : List Draws}
    (hdraws : ∀ f ∈ fails, ∃ now key token, f = drawsOf now key token) (h : Agrees (nodeWith C) S ledger w)
    (hlife : ledger name = some life) (hkind : life.kind = .automatic) (hlogin : life.payload = .userpass login)
    (htarget : life.target = some (.pgReplica pg)) (hroom : life.version + fails.length < 2 ^ 31 - 1)
    (hstate : w.tables.kmsRewrap = .empty) (hsilent : w.Silent) :
    let w' := System.serial (World.perform (nodeWith C)) (ServiceCall.body (nodeWith C)) w
      (fails.map (.rotate actor clientIp name))
    FailedRotations (nodeWith C) actor clientIp name w fails ∧ w'.tables.kmsRewrap = .empty ∧ w'.Silent ∧
      w'.passwords = w.passwords := by
  induction fails generalizing w ledger life login with
  | nil => exact ⟨trivial, hstate, hsilent, rfl⟩
  | cons d rest ih =>
      obtain ⟨now, key, token, rfl⟩ := hdraws d List.mem_cons_self
      rw [List.length_cons] at hroom
      obtain ⟨secret, x, w₁, hcommit⟩ := rotate_login_exec h hlife hkind hlogin (by omega) hstate now key token
      obtain ⟨last, hlast, _, _, hstarget, hpayload, _⟩ := rotateCommit_exec_ok h actor clientIp hcommit
      obtain rfl : life = last := Option.some.inj (hlife.symm.trans hlast)
      rw [hlogin] at hpayload
      have hsilent₁ := (silent_exec (A := nodeWith C)
        (rotateCommit (nodeWith C) name (drawsOf now key token)).run hsilent).1
      rw [show (rotateCommit (nodeWith C) name (drawsOf now key token)).run.exec (World.perform (nodeWith C)) w = _ from
        hcommit] at hsilent₁
      obtain ⟨e, w₂, hfinish⟩ := rotateFinish_silent actor clientIp (hstarget.trans htarget) hpayload hsilent₁
      have hcommits : (ServiceCall.rotate actor clientIp name (drawsOf now key token)).commits
          (nodeWith C) w = true := by
        rw [ServiceCall.commits, hcommit]
        rfl
      have hagrees := agrees_exec h (.rotate actor clientIp name (drawsOf now key token)) fun _ hcall => by cases hcall
      rw [if_pos hcommits] at hagrees
      have hafter : ledger.after (.rotate actor clientIp name (drawsOf now key token)) name =
          some (life.rotate token now) := by
        rw [Ledger.after, Function.update_self, hlife, Option.map_some]
        rfl
      have hlogin' : (life.rotate token now).payload = .userpass ⟨login.username, token⟩ := by
        simp only [Life.rotate, Life.supersede, hlogin, Payload.rotated]
      have hroom' : (life.rotate token now).version + rest.length < 2 ^ 31 - 1 := by
        simp only [Life.rotate, Life.supersede, Life.version, List.length_append, List.length_singleton] at hroom ⊢
        omega
      have honly : (rotate (nodeWith C) actor clientIp name (drawsOf now key token)).run.Only (SecretOp name) :=
        rotate_only (nodeWith C) actor clientIp (drawsOf now key token)
      have hstate' := kmsRewrap_exec (A := nodeWith C) honly .value w
      obtain ⟨hsilent', hpasswords⟩ := silent_exec (A := nodeWith C)
        ((ServiceCall.rotate actor clientIp name (drawsOf now key token)).body (nodeWith C)) hsilent
      obtain ⟨hfailed, hstateEnd, hsilentEnd, hpasswordsEnd⟩ :=
        ih (fun f hf => hdraws f (List.mem_cons_of_mem _ hf)) hagrees
        hafter hkind hlogin' htarget hroom' (hstate'.trans hstate) hsilent'
      have hrotate : (rotate (nodeWith C) actor clientIp name (drawsOf now key token)).exec
          (nodeWith C) w = (.error e, w₂) :=
        (Call.exec_bind_ok hcommit).trans hfinish
      exact ⟨⟨⟨e, congrArg Prod.fst hrotate⟩, hcommits, hfailed⟩, hstateEnd, hsilentEnd, hpasswordsEnd.trans hpasswords⟩

/-- A login that changes itself, with a grace period of an hour. -/
def selfRequest : CreateSecretRequest :=
  { opaqueRequest "a" "" with
    kind := .automatic, value := none, username := some "app", password := some "first"
    rotationIntervalSecs := some 100, gracePeriodSecs := some 3600
    target := some (.pgReplica ⟨["db"], "postgres", none, none⟩) }

def createSelf : ServiceCall := .create "root" selfRequest (drawsOf 0 1 "")

/-- The secret as it was created. -/
def selfLife : Life :=
  ⟨.automatic, some (.pgReplica ⟨["db"], "postgres", none, none⟩), 3600, .userpass ⟨"app", "first"⟩, []⟩

/-- A target that accepts the password of the secret, and cannot be reached. -/
def silentWorld : World :=
  { freshWorld with
    passwords := fun role => if role = "app" then some "first" else none
    network := fun _ => .unreachable "timeout" }

theorem silentWorld_start : silentWorld.Start := ⟨rfl, rfl, fun _ _ _ => rfl⟩

theorem createSelf_committed (C : Codec) : committed (nodeWith C) silentWorld [createSelf] = [createSelf] := by
  have hcheck : checkCreate (nodeWith C) selfRequest "" = .ok (3600, .userpass ⟨"app", "first"⟩) := rfl
  have hcommits : createSelf.commits (nodeWith C) silentWorld = true :=
    create_commits C "root" 0 1 hcheck isValidSecretName_a rfl rfl
  rw [committed, if_pos hcommits]
  rfl

theorem ledgerOf_createSelf : ledgerOf [createSelf] "a" = some selfLife := rfl

theorem uniform_selfLife : selfLife.Uniform := uniform_ledgerOf [createSelf] "a" selfLife ledgerOf_createSelf

/-- The secret is created, and rotated a few times in vain. -/
def vainWorld (C : Codec) (fails : List Draws) : World :=
  System.serial (World.perform (nodeWith C)) (ServiceCall.body (nodeWith C)) silentWorld
    ([createSelf] ++ fails.map (.rotate "root" none "a"))

theorem silent_run (C : Codec) (S : Int64 → Prop) {fails : List Draws}
    (hdraws : ∀ f ∈ fails, ∃ now key token, f = drawsOf now key token) (hlength : fails.length < 1000) :
    let A := nodeWith C
    FailedRotations A "root" none "a"
      (System.serial (World.perform A) (ServiceCall.body A) silentWorld [createSelf]) fails ∧
      (∃ ledger, Agrees A S ledger (vainWorld C fails) ∧ ledger "a" = some (selfLife.rotations fails)) ∧
      (vainWorld C fails).tables.kmsRewrap = .empty ∧ (vainWorld C fails).passwords = silentWorld.passwords := by
  intro A
  let created := System.serial (World.perform A) (ServiceCall.body A) silentWorld [createSelf]
  have hagrees : Agrees A S (ledgerOf [createSelf]) created := by
    have hserial := agrees_serial (A := A) (S := S) [createSelf] (fun now hnow => by simp [createSelf] at hnow)
      (agrees_start silentWorld_start)
    rw [createSelf_committed] at hserial
    exact hserial
  have hstate : created.tables.kmsRewrap = .empty := kmsRewrap_create A "root" selfRequest (drawsOf 0 1 "") silentWorld
  have hquiet : silentWorld.Silent := fun _ => ⟨"timeout", rfl⟩
  obtain ⟨hsilent, hpasswords⟩ := silent_exec (A := A) (createSelf.body A) hquiet
  obtain ⟨hfailed, hstate', _, hpasswords'⟩ :=
    silent_rotations "root" none hdraws hagrees ledgerOf_createSelf rfl rfl rfl
    (show 1 + fails.length < 2 ^ 31 - 1 by omega) hstate hsilent
  have hworld : vainWorld C fails =
      System.serial (World.perform A) (ServiceCall.body A) created (fails.map (.rotate "root" none "a")) :=
    System.serial_append ..
  rw [hworld]
  exact ⟨hfailed, hfailed.agrees hagrees ledgerOf_createSelf, hstate', hpasswords'.trans hpasswords⟩

/-- The next rotation commits its version, and leaves the target alone. -/
theorem silent_next {fails : List Draws} (h : Agrees (nodeWith C) S ledger w)
    (hlife : ledger "a" = some (selfLife.rotations fails)) (hlength : fails.length < 1000)
    (hstate : w.tables.kmsRewrap = .empty) (now : Int64) (key : Nat) (token : String) :
    ∃ secret x w₁, (rotateCommit (nodeWith C) "a" (drawsOf now key token)).exec (nodeWith C) w = (.ok (secret, x), w₁) ∧
      w₁.passwords = w.passwords ∧ w₁.network = w.network := by
  have hroom : (selfLife.rotations fails).version < 2 ^ 31 - 1 := by
    have hpast := selfLife.length_past_rotations fails
    unfold Life.version
    rw [hpast, show selfLife.past.length = 0 from rfl]
    omega
  obtain ⟨secret, x, w₁, hcommit⟩ := rotate_login_exec h hlife (selfLife.kind_rotations fails)
    (selfLife.payload_rotations rfl fails) hroom hstate now key token
  obtain ⟨_, _, _, _, _, _, _, _, _, hsame⟩ := rotateCommit_exec_ok h "root" none hcommit
  refine ⟨secret, x, w₁, hcommit, ?_, ?_⟩
  · rw [hsame]
    rfl
  · rw [hsame]
    rfl

end Unanswered

/-- A secret with a login that it changes itself, whose target accepts the current version; rotations `fails` that
commit their versions and fail on the target; and then a rotation `d` that commits its version while the version
the target accepts is live. The login of that version is tried if at most one of the versions between it and the
last is live, and if no generated password repeats it, then only if so: with a clock that never goes back, after at
most two failures. A rotation that tries it succeeds when the target answers. -/
theorem recovery_after_failures (A : AppState) (w : World) (hw : w.Start)
    (calls : List ServiceCall) (name actor : String)
    (clientIp : Option String) (life : Life) (login : UserPass) (pg : PgRoleTarget) (fails : List Draws) (d : Draws)
    (secret : SecretRecord) (x : Sealing) (w₁ : World)
    (hsweep : ∀ now, .expireGrace now ∈ calls → now ≤ d.now)
    (hlife : ledgerOf (committed A w calls) name = some life) (hlogin : life.payload = .userpass login)
    (htarget : life.target = some (.pgReplica pg)) (hself : ∀ other, pg.loginSecret = some other → other = name)
    (hfails : FailedRotations A actor clientIp name
      (System.serial (World.perform A) (ServiceCall.body A) w calls) fails)
    (hnext : (rotateCommit A name d).exec A (System.serial (World.perform A) (ServiceCall.body A) w
      (calls ++ fails.map (.rotate actor clientIp name))) = (.ok (secret, x), w₁))
    (hholds : w₁.passwords login.username = some login.password)
    (hlive : ∀ f, fails.head? = some f → d.now < graceExpiryUnix f.now life.grace) :
    ∃ logins, (selfLoginCandidates A name secret.currentVersion d.now).exec A w₁ = (.ok logins, w₁) ∧
      (NoTwoLive d.now life.grace fails.tail → login ∈ logins) ∧
      ((∀ f ∈ fails ++ [d], f.token ≠ login.password) → (login ∈ logins ↔ NoTwoLive d.now life.grace fails.tail)) ∧
      (fails.length ≤ 2 → NoTwoLive d.now life.grace fails.tail) ∧
      ((fails.Pairwise fun f f' => f.now ≤ f'.now) → NoTwoLive d.now life.grace fails.tail → fails.length ≤ 2) ∧
      (login ∈ logins → A.pgTargets.check pg = .ok () → w₁.Answers →
        ∃ value w₂, (rotate A actor clientIp name d).exec A (System.serial (World.perform A) (ServiceCall.body A) w
          (calls ++ fails.map (.rotate actor clientIp name))) = (.ok value, w₂)) := by
  have hstart : Agrees A (· ≤ d.now) (ledgerOf (committed A w calls))
      (System.serial (World.perform A) (ServiceCall.body A) w calls) := agrees_serial calls hsweep (agrees_start hw)
  rw [System.serial_append] at hnext ⊢
  obtain ⟨ledger, hfailed, hrotations⟩ := hfails.agrees hstart hlife
  have hretry := next_rotation hfailed hrotations (uniform_ledgerOf _ name life hlife) hnext
  obtain ⟨logins, hexec, hin, hout, _⟩ := login_tried hretry hlogin hlive
  refine ⟨logins, hexec, hin, fun hfresh => ⟨hout hfresh, hin⟩, noTwoLive_of_length,
    fun hclock => length_of_noTwoLive hclock hlive, fun hmem hcheck hanswers => ?_⟩
  have hpayload := hretry.payload
  rw [life.payload_rotations hlogin] at hpayload
  obtain ⟨value, w₂, hfinish⟩ :=
    rotateFinish_recovers actor clientIp (hretry.target.trans htarget) hself hpayload hexec hmem
    hholds hcheck hanswers
  exact ⟨value, w₂, (Call.exec_bind_ok hnext).trans hfinish⟩

/-- Rotations in vain, all at the time 0. -/
def vainDraws (tokens : List String) : List Draws := tokens.map (drawsOf 0 2)

theorem exists_vainDraws (tokens : List String) :
    ∀ f ∈ vainDraws tokens, ∃ now key token, f = drawsOf now key token := by
  intro f hf
  obtain ⟨token, _, rfl⟩ := List.mem_map.mp hf
  exact ⟨0, 2, token, rfl⟩

theorem third_rotation_recovers :
    let A := nodeWith jsonCodec
    let fails := vainDraws ["w1", "w2"]
    FailedRotations A "root" none "a"
      (System.serial (World.perform A) (ServiceCall.body A) silentWorld [createSelf]) fails ∧
      ∃ secret x w₁ logins,
        (rotateCommit A "a" (drawsOf 0 3 "w3")).exec A (vainWorld jsonCodec fails) = (.ok (secret, x), w₁) ∧
        w₁.passwords "app" = some "first" ∧
        (selfLoginCandidates A "a" secret.currentVersion 0).exec A w₁ = (.ok logins, w₁) ∧
          ⟨"app", "first"⟩ ∈ logins := by
  intro A fails
  obtain ⟨hfailed, ⟨ledger, hagrees, hrotations⟩, hstate, hpasswords⟩ :=
    silent_run jsonCodec (fun _ => True) (exists_vainDraws ["w1", "w2"]) (by decide)
  obtain ⟨secret, x, w₁, hnext, hpasswords₁, _⟩ := silent_next hagrees hrotations (by decide) hstate 0 3 "w3"
  have hholds : w₁.passwords "app" = some "first" := by
    rw [hpasswords₁, hpasswords]
    rfl
  have hlife : ledgerOf (committed A silentWorld [createSelf]) "a" = some selfLife := by
    rw [createSelf_committed]
    exact ledgerOf_createSelf
  obtain ⟨logins, hexec, hin, _, htwo, _⟩ :=
    recovery_after_failures A silentWorld silentWorld_start [createSelf] "a" "root"
    none selfLife ⟨"app", "first"⟩ ⟨["db"], "postgres", none, none⟩ fails (drawsOf 0 3 "w3") secret x w₁
    (fun now hnow => by simp [createSelf] at hnow) hlife rfl rfl nofun hfailed hnext hholds
    (fun f hf => by cases hf; decide)
  exact ⟨hfailed, secret, x, w₁, logins, hnext, hholds, hexec, hin (htwo (by decide))⟩

/-- A rotation after three in vain, when the target answers: the version it accepts is live, and is not tried. -/
theorem fourth_rotation {C : Codec} {ledger : Ledger} {w : World}
    (h : Agrees (nodeWith C) (· ≤ (drawsOf 0 3 "w4").now) ledger w)
    (hlife : ledger "a" = some (selfLife.rotations (vainDraws ["w1", "w2", "w3"])))
    (hstate : w.tables.kmsRewrap = .empty)
    (hholds : w.passwords "app" = some "first") :
    let again : World := { w with network := fun _ => .primary }
    again.Answers ∧ again.passwords "app" = some "first" ∧
    ∃ secret x w₁ logins e,
      (rotateCommit (nodeWith C) "a" (drawsOf 0 3 "w4")).exec (nodeWith C) again = (.ok (secret, x), w₁) ∧
      (w₁.view (nodeWith C) "a").payload 1 = some (.userpass ⟨"app", "first"⟩) ∧
      (∃ v, versionAt C w₁.tables (versionKey "a" 1) = some v ∧ v.expiresAt.all (0 < ·) = true) ∧
      (selfLoginCandidates (nodeWith C) "a" secret.currentVersion 0).exec (nodeWith C) w₁ = (.ok logins, w₁) ∧
      ⟨"app", "first"⟩ ∉ logins ∧
      ((rotate (nodeWith C) "root" none "a" (drawsOf 0 3 "w4")).exec (nodeWith C) again).1 = .error e := by
  refine ⟨fun k _ => rfl, hholds, ?_⟩
  replace h := h.network fun _ => .primary
  obtain ⟨secret, x, w₁, hnext, hpasswords₁, hnetwork₁⟩ := silent_next h hlife (by decide) hstate 0 3 "w4"
  have hretry : Retry (nodeWith C) "a" selfLife (vainDraws ["w1", "w2", "w3"]) (drawsOf 0 3 "w4") secret x w₁ :=
    next_rotation h hlife uniform_selfLife hnext
  obtain ⟨logins, hexec, _, hout, hpayloads⟩ := login_tried hretry rfl (fun f hf => by cases hf; decide)
  obtain ⟨⟨ledger', hagrees, hrotations⟩, _, _, _, htarget, hpayload⟩ := hretry
  have hfresh : ∀ f ∈ vainDraws ["w1", "w2", "w3"] ++ [drawsOf 0 3 "w4"], f.token ≠ "first" := by
    simp [vainDraws, drawsOf]
  have htwo : ¬NoTwoLive 0 3600 (vainDraws ["w1", "w2", "w3"]).tail := by
    unfold NoTwoLive
    decide
  have hnot : ⟨"app", "first"⟩ ∉ logins := fun hin => htwo (hout hfresh hin)
  replace hholds : w₁.passwords "app" = some "first" := by
    rw [hpasswords₁]
    exact hholds
  have hversion : selfLife.version = 1 := rfl
  have hlength : (vainDraws ["w1", "w2", "w3"]).length = 3 := rfl
  have hrefused : ∀ login ∈ logins, w₁.passwords login.username ≠ some login.password := by
    -- every version has the same user, so only the first password is accepted
    rintro ⟨user, password⟩ hlogin haccepted
    obtain ⟨k, hpos, hle, hview⟩ := hpayloads _ hlogin
    obtain ⟨i, hi⟩ : ∃ i : Nat, k.toInt = selfLife.version + i := ⟨(k.toInt - 1).toNat, by omega⟩
    have hplace : i ≤ (vainDraws ["w1", "w2", "w3"] ++ [drawsOf 0 3 "w4"]).length := by
      rw [List.length_append, List.length_singleton]
      omega
    have hsame := (payload_rotation hagrees hrotations rfl hi hplace).symm.trans hview
    obtain rfl : "app" = user := congrArg UserPass.username (Payload.userpass.inj (Option.some.inj hsame))
    obtain rfl : "first" = password := Option.some.inj (hholds.symm.trans haccepted)
    exact hnot hlogin
  have hanswers : w₁.Answers := fun k _ => by rw [hnetwork₁]
  have hlogin : x.payload = .userpass ⟨"app", "w4"⟩ := by
    rw [hpayload, selfLife.payload_rotations rfl]
    rfl
  obtain ⟨e, w₂, hfinish⟩ := rotateFinish_refused "root" none htarget nofun hlogin hexec hrefused hanswers
  have hfirst : (w₁.view (nodeWith C) "a").payload 1 = some (.userpass ⟨"app", "first"⟩) :=
    payload_rotation (i := 0) hagrees hrotations rfl rfl (Nat.zero_le _)
  obtain ⟨v, hv, _, hrow, hlive⟩ := (live_rotation_iff (i := 0) (k := 1) hagrees hrotations rfl rfl).mpr (by decide)
  rw [hv] at hrow
  have hrotate : (rotate (nodeWith C) "root" none "a" (drawsOf 0 3 "w4")).exec (nodeWith C)
      { w with network := fun _ => .primary } = (.error e, w₂) := (Call.exec_bind_ok hnext).trans hfinish
  exact ⟨secret, x, w₁, logins, e, hnext, hfirst, ⟨v, hrow, hlive⟩, hexec, hnot, congrArg Prod.fst hrotate⟩

/-- Three versions between the one that the target accepts and the last: it is live, and no longer tried. -/
theorem fourth_rotation_fails :
    let A := nodeWith jsonCodec
    let fails := vainDraws ["w1", "w2", "w3"]
    let again : World := { vainWorld jsonCodec fails with network := fun _ => .primary }
    FailedRotations A "root" none "a"
      (System.serial (World.perform A) (ServiceCall.body A) silentWorld [createSelf]) fails ∧
      A.pgTargets.check ⟨["db"], "postgres", none, none⟩ = .ok () ∧ again.Answers ∧
      again.passwords "app" = some "first" ∧
      ∃ secret x w₁ logins e, (rotateCommit A "a" (drawsOf 0 3 "w4")).exec A again = (.ok (secret, x), w₁) ∧
        (w₁.view A "a").payload 1 = some (.userpass ⟨"app", "first"⟩) ∧
        (∃ v, versionAt A.codec w₁.tables (versionKey "a" 1) = some v ∧ v.expiresAt.all (0 < ·) = true) ∧
        (selfLoginCandidates A "a" secret.currentVersion 0).exec A w₁ = (.ok logins, w₁) ∧ ⟨"app", "first"⟩ ∉ logins ∧
        ((rotate A "root" none "a" (drawsOf 0 3 "w4")).exec A again).1 = .error e := by
  obtain ⟨hfailed, ⟨ledger, hagrees, hrotations⟩, hstate, hpasswords⟩ :=
    silent_run jsonCodec (· ≤ (drawsOf 0 3 "w4").now) (exists_vainDraws ["w1", "w2", "w3"]) (by decide)
  have hcheck : (nodeWith jsonCodec).pgTargets.check ⟨["db"], "postgres", none, none⟩ = .ok () := rfl
  have hholds : (vainWorld jsonCodec (vainDraws ["w1", "w2", "w3"])).passwords "app" = some "first" := by
    rw [hpasswords]
    rfl
  exact ⟨hfailed, hcheck, fourth_rotation hagrees hrotations hstate hholds⟩

end HyperionVault
