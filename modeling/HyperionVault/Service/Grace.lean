import HyperionVault.Service.Changes
import HyperionVault.Service.Written
import HyperionVault.Store.Live
import Mathlib.Data.Nat.Find

/-!
# Grace windows

`verify` accepts the value of the current version, and that of a superseded version until its grace period has
passed. The expiry of a superseded version is a sum that clamps at the largest time, so at that time itself no
superseded version is accepted.

* `Payload.verified`, `Life.Accepts` : what is verified of a payload, and the versions that hold it;
* `verifyVersions_eq`, `live_iff` : the search, and the versions it goes through;
* `verify_exec` : the answer of `verify`;
* `verify_follows_grace` : the answers after any serial run.
-/

namespace HyperionVault
open Lib

/-- Of a login the password is verified. -/
def Payload.verified : Payload → String
  | .value text => text
  | .userpass login => login.password

/-- The version of this number holds `x` and is current or still in its grace period. -/
def Life.Accepts (inGrace : Past → Prop) (life : Life) (x : String) (number : Nat) : Prop :=
  number = life.version ∧ life.payload.verified = x ∨
    ∃ i p, life.past[i]? = some p ∧ number = i + 1 ∧ p.payload.verified = x ∧ inGrace p

/-- The time is before the end of the grace period. -/
def Past.BeforeEnd (t : Int64) (p : Past) : Prop := t.toInt < p.supersededAt.toInt + p.grace.toInt

instance (t : Int64) (p : Past) : Decidable (p.BeforeEnd t) := inferInstanceAs (Decidable (_ < _))

theorem Past.lt_expiry_iff {t : Int64} {p : Past} : t < p.expiry ↔ p.BeforeEnd t ∧ t < Int64.maxValue := lt_satAdd_iff

/-! ## One format for all versions -/

def Life.Uniform (life : Life) : Prop := ∀ p ∈ life.past, p.payload.format = life.payload.format

theorem Life.uniform_supersede {life : Life} (h : life.Uniform) {payload : Payload}
    (hpayload : payload.format = life.payload.format) (now : Int64) : (life.supersede payload now).Uniform := by
  intro p hp
  rcases List.mem_append.mp hp with hp | hp
  · exact (h p hp).trans hpayload.symm
  · rw [List.mem_singleton.mp hp]
    exact hpayload.symm

theorem Life.uniform_update {life : Life} (h : life.Uniform) (req : UpdateSecretRequest) (now : Int64) :
    (life.update req now).Uniform := by
  unfold Life.update
  split_ifs
  · exact Life.uniform_supersede h (Payload.format_updated _ _) now
  · exact h

theorem uniform_after {ledger : Ledger} (h : ∀ name life, ledger name = some life → life.Uniform) (call : ServiceCall)
    (name : String) (life : Life) (hlife : ledger.after call name = some life) : life.Uniform := by
  have hupdate {other : String} {f : Life → Life} (hf : ∀ l, l.Uniform → (f l).Uniform)
      (hl : Function.update ledger other ((ledger other).map f) name = some life) : life.Uniform := by
    by_cases hname : name = other
    · subst hname
      rw [Function.update_self] at hl
      obtain ⟨l, hold, rfl⟩ := Option.map_eq_some_iff.mp hl
      exact hf l (h name l hold)
    · rw [Function.update_of_ne hname] at hl
      exact h name life hl
  cases call with
  | create actor req d =>
      by_cases hname : name = req.name
      · subst hname
        rw [Ledger.after, Function.update_self] at hlife
        cases hlife
        exact fun p hp => absurd hp List.not_mem_nil
      · rw [Ledger.after, Function.update_of_ne hname] at hlife
        exact h name life hlife
  | update actor other req d => exact hupdate (fun l hl => Life.uniform_update hl req d.now) hlife
  | rotate actor clientIp other d =>
      exact hupdate (fun l hl => Life.uniform_supersede hl (Payload.format_rotated _ _) d.now) hlife
  | delete actor other d =>
      by_cases hname : name = other
      · subst hname
        rw [Ledger.after, Function.update_self] at hlife
        cases hlife
      · rw [Ledger.after, Function.update_of_ne hname] at hlife
        exact h name life hlife
  | expireGrace now => exact h name life hlife
  | rewrap => exact h name life hlife

theorem uniform_ledgerOf (calls : List ServiceCall) (name : String) (life : Life)
    (hlife : ledgerOf calls name = some life) : life.Uniform := by
  induction calls using List.reverseRecOn generalizing name life with
  | nil => cases hlife
  | append_singleton calls call ih =>
      rw [ledgerOf, List.foldl_concat] at hlife
      exact uniform_after ih call name life hlife

/-! ## The search -/

theorem presentedMatches_bytes (A : AppState) (payload : Payload) (x : String) :
    presentedMatches A payload.format x (payload.bytes A) = decide (payload.verified = x) := by
  have hutf8 (y : String) : decide (utf8 x = utf8 y) = decide (y = x) :=
    decide_eq_decide.mpr ⟨fun h => (utf8_inj h).symm, fun h => by rw [h]⟩
  cases payload with
  | value text => exact hutf8 text
  | userpass login =>
      simp only [Payload.format, Payload.bytes, presentedMatches, A.userpass.decode_encode]
      exact hutf8 login.password

/-- Where every version opens, the search returns the first one that holds what was presented. -/
theorem verifyVersions_eq {A : AppState} {name x : String} {format : SecretFormat} {payload : Int32 → Option Payload}
    {versions : List VersionRecord} (hopen : ∀ v ∈ versions, ∃ p, payload v.version = some p ∧ p.format = format ∧
      openVersion A name v.version v = .ok (p.bytes A)) :
    verifyVersions A name format x versions =
      .ok ((versions.find? fun v => (payload v.version).any (·.verified = x)).map VersionRecord.version) := by
  induction versions with
  | nil => rfl
  | cons v rest ih =>
      obtain ⟨p, hp, rfl, hbytes⟩ := hopen v List.mem_cons_self
      have hrest := ih fun v' hv' => hopen v' (List.mem_cons_of_mem _ hv')
      have hfirst : (payload v.version).any (·.verified = x) = decide (p.verified = x) := by
        rw [hp]
        rfl
      unfold verifyVersions
      refine bind_eq_ok.mpr ⟨_, hbytes, ?_⟩
      rw [presentedMatches_bytes, List.find?_cons, hfirst]
      by_cases hx : p.verified = x
      · rw [decide_eq_true hx]
        rfl
      · rw [decide_eq_false hx]
        exact hrest

/-- The first element with a property in a list that descends is the highest one. -/
theorem find?_descending {α β : Type} [LinearOrder β] {f : α → β} {p : α → Bool} {l : List α}
    (h : l.Pairwise fun a b => f b < f a) (b : β) :
    (l.find? p).map f = some b ↔ (∃ a ∈ l, p a = true ∧ f a = b) ∧ ∀ a ∈ l, p a = true → f a ≤ b := by
  induction l with
  | nil => simp
  | cons a rest ih =>
      obtain ⟨habove, hrest⟩ := List.pairwise_cons.mp h
      by_cases ha : p a = true
      · rw [List.find?_cons_of_pos ha, Option.map_some, Option.some.injEq]
        constructor
        · rintro rfl
          refine ⟨⟨a, List.mem_cons_self, ha, rfl⟩, fun a' ha' _ => ?_⟩
          rcases List.mem_cons.mp ha' with rfl | hmem
          · exact le_refl _
          · exact (habove a' hmem).le
        · rintro ⟨⟨a', ha', _, rfl⟩, hmax⟩
          rcases List.mem_cons.mp ha' with rfl | hmem
          · rfl
          · exact absurd (habove a' hmem) (not_lt.mpr (hmax a List.mem_cons_self ha))
      · rw [List.find?_cons_of_neg ha, ih hrest]
        simp [ha]

section Verify
variable {A : AppState} {ledger : Ledger} {w : World} {name x : String} {t : Int64} {secret : SecretRecord} {life : Life}
  {inGrace : Past → Prop} {n : Nat}

/-- The versions that a search at time `t` goes through, if nothing that expires later has been swept. -/
theorem live_iff (h : Agrees A (· ≤ t) ledger w) (hs : secretAt A.codec w.tables name = some secret)
    (hlife : Tells (· ≤ t) life (w.view A name) secret.currentVersion) (number : Int32) :
    (∃ v, v.version = number ∧ 1 ≤ v.version ∧ versionAt A.codec w.tables (versionKey name v.version) = some v ∧
      v.expiresAt.all (t < ·) = true) ↔
    number.toInt = life.version ∨ ∃ (i : Nat) (p : Past), life.past[i]? = some p ∧
      number.toInt = i + 1 ∧ t < p.expiry := by
  obtain ⟨hname, hpos⟩ := h.vault.store.valid name secret hs
  have hcount := hlife.count
  have hone {i : Nat} (hi : number.toInt = i + 1) : 1 ≤ number := by
    rw [Int32.le_iff_toInt_le, hi, show (1 : Int32).toInt = 1 from rfl]
    omega
  -- a row of this number and its expiry
  have hrow {e : Option Int64} (hnumber : 1 ≤ number) (he : (w.view A name).expiry number = some e) :
      ∃ v, v.version = number ∧ versionAt A.codec w.tables (versionKey name v.version) = some v ∧ v.expiresAt = e := by
    obtain ⟨v, hv, hexpiry⟩ := Option.map_eq_some_iff.mp he
    have hversion := (h.vault.store.owned_versionKey hname hnumber hv).1
    exact ⟨v, hversion, by rw [hversion]; exact hv, hexpiry⟩
  constructor
  · rintro ⟨v, rfl, hnumber, hv, hall⟩
    obtain ⟨_, s, hs', hle, _⟩ := h.vault.store.owned_versionKey hname hnumber hv
    obtain rfl : secret = s := Option.some.inj (hs.symm.trans hs')
    rw [Int32.le_iff_toInt_le] at hle hnumber
    rw [show (1 : Int32).toInt = 1 from rfl] at hnumber
    have hexpiry : (w.view A name).expiry v.version = some v.expiresAt := by simp only [World.view, hv, Option.map_some]
    rcases Nat.lt_or_ge (v.version.toInt.toNat - 1) life.past.length with hlt | hge
    · refine Or.inr ⟨v.version.toInt.toNat - 1, _, List.getElem?_eq_getElem hlt, by omega, ?_⟩
      obtain ⟨_, hrow' | ⟨hgone, _⟩⟩ := hlife.past _ _ (List.getElem?_eq_getElem hlt) v.version (by omega)
      · rw [Option.some.inj (hexpiry.symm.trans hrow')] at hall
        exact of_decide_eq_true hall
      · cases hexpiry.symm.trans hgone
    · left
      unfold Life.version at hcount ⊢
      omega
  · rintro (hcurrent | ⟨i, p, hp, hi, hlt⟩)
    · obtain rfl : secret.currentVersion = number := Int32.toInt_inj.mp (hcount.trans hcurrent.symm)
      obtain ⟨v, hversion, hv, hexpiry⟩ := hrow hpos hlife.unexpired
      exact ⟨v, hversion, hversion ▸ hpos, hv, by rw [hexpiry]; rfl⟩
    · obtain ⟨_, hkept | ⟨_, e, he, hle⟩⟩ := hlife.past i p hp number hi
      · obtain ⟨v, hversion, hv, hexpiry⟩ := hrow (hone hi) hkept
        refine ⟨v, hversion, hversion ▸ hone hi, hv, ?_⟩
        rw [hexpiry]
        exact decide_eq_true hlt
      · exact absurd (lt_of_lt_of_le hlt hle) (not_lt.mpr he)

/-- The versions among them that hold what was presented. -/
theorem accepts_iff (h : Agrees A (· ≤ t) ledger w) (hs : secretAt A.codec w.tables name = some secret)
    (hlife : Tells (· ≤ t) life (w.view A name) secret.currentVersion) (number : Int32) :
    ((∃ v, v.version = number ∧ 1 ≤ v.version ∧ versionAt A.codec w.tables (versionKey name v.version) = some v ∧
      v.expiresAt.all (t < ·) = true) ∧ ((w.view A name).payload number).any (·.verified = x) = true) ↔
    ∃ n : Nat, number.toInt = n ∧ life.Accepts (fun p => p.BeforeEnd t ∧ t < Int64.maxValue) x n := by
  have hcurrent : number.toInt = life.version → (w.view A name).payload number = some life.payload := fun hn =>
    Int32.toInt_inj.mp (hlife.count.trans hn.symm) ▸ hlife.current
  have hpast {i : Nat} {p : Past} (hp : life.past[i]? = some p) (hi : number.toInt = i + 1) :
      (w.view A name).payload number = some p.payload := (hlife.past i p hp number hi).1
  rw [live_iff h hs hlife number]
  constructor
  · rintro ⟨hn | ⟨i, p, hp, hi, hlt⟩, hany⟩
    · rw [hcurrent hn] at hany
      exact ⟨life.version, hn, Or.inl ⟨rfl, of_decide_eq_true hany⟩⟩
    · rw [hpast hp hi] at hany
      exact ⟨i + 1, hi, Or.inr ⟨i, p, hp, rfl, of_decide_eq_true hany, Past.lt_expiry_iff.mp hlt⟩⟩
  · rintro ⟨n, hn, ⟨rfl, hx⟩ | ⟨i, p, hp, rfl, hx, hgrace⟩⟩
    · rw [hcurrent hn]
      exact ⟨Or.inl hn, decide_eq_true hx⟩
    · rw [hpast hp hn]
      exact ⟨Or.inr ⟨i, p, hp, hn, Past.lt_expiry_iff.mpr hgrace⟩, decide_eq_true hx⟩

/-- A live version of a secret opens to a payload of the secret's format. -/
theorem live_opens (h : Agrees A (· ≤ t) ledger w) (huniform : life.Uniform)
    (hs : secretAt A.codec w.tables name = some secret)
    (hlife : Tells (· ≤ t) life (w.view A name) secret.currentVersion) {v : VersionRecord} (hnumber : 1 ≤ v.version)
    (hv : versionAt A.codec w.tables (versionKey name v.version) = some v) (hall : v.expiresAt.all (t < ·) = true) :
    ∃ p, (w.view A name).payload v.version = some p ∧ p.format = life.payload.format ∧
      openVersion A name v.version v = .ok (p.bytes A) := by
  have hname := (h.vault.store.valid name secret hs).1
  have hopen {p : Payload} (hp : (w.view A name).payload v.version = some p) :
      openVersion A name v.version v = .ok (p.bytes A) := openVersion_of_view h.vault hname hnumber hv hp
  rcases (live_iff h hs hlife v.version).mp ⟨v, rfl, hnumber, hv, hall⟩ with hn | ⟨i, p, hp, hi, _⟩
  · have hcurrent : (w.view A name).payload v.version = some life.payload :=
      Int32.toInt_inj.mp (hlife.count.trans hn.symm) ▸ hlife.current
    exact ⟨life.payload, hcurrent, rfl, hopen hcurrent⟩
  · have hpast := (hlife.past i p hp v.version hi).1
    exact ⟨p.payload, hpast, huniform p (List.mem_of_getElem? hp), hopen hpast⟩

theorem Life.Accepts.le_version (h : life.Accepts inGrace x n) :
    n ≤ life.version := by
  rcases h with ⟨rfl, _⟩ | ⟨i, p, hp, rfl, _⟩
  · exact le_refl _
  · have hi := (List.getElem?_eq_some_iff.mp hp).1
    unfold Life.version
    omega

/-- The versions of a secret are numbered by 32 bits. -/
theorem Life.Accepts.exists_number (h : life.Accepts inGrace x n)
    {current : Int32} (hcurrent : current.toInt = life.version) : ∃ number : Int32, number.toInt = n := by
  have hle := h.le_version
  exact exists_toInt_eq current (by omega)

theorem verifyInvalid_exec (cfg : AuthConfig) (name clientIp : String) (peer : IpAddr) (d : Draws) (recordAt : Int64)
    (w : World) : ((verifyInvalid A cfg name clientIp peer d recordAt).exec A w).1 = .ok ⟨false, none⟩ := by
  let w₁ := ((audit A none (some clientIp) "verify" (some name) "invalid" d).exec A w).2
  have haudit : (audit A none (some clientIp) "verify" (some name) "invalid" d).exec A w = (.ok (), w₁) := rfl
  obtain ⟨w₂, hrecord⟩ := recordKey_exec (A := A) cfg (verifyKey cfg peer name) recordAt w₁
  rw [verifyInvalid, Call.exec_bind_ok haudit]
  exact congrArg Prod.fst (Call.exec_bind_ok hrecord)

/-- The highest version of the ledger that holds what was presented. -/
def Highest (inGrace : Past → Prop) (life : Life) (x : String) (n : Nat) : Prop :=
  life.Accepts inGrace x n ∧ ∀ m, life.Accepts inGrace x m → m ≤ n

theorem Life.Accepts.exists_highest (h : life.Accepts inGrace x n) :
    ∃ m, Highest inGrace life x m := by
  classical
  refine ⟨Nat.findGreatest (life.Accepts inGrace x) life.version, Nat.findGreatest_spec h.le_version h, ?_⟩
  exact fun m hm => Nat.le_findGreatest hm.le_version hm

/-- The first version found, where the versions descend, is the highest one. -/
theorem search_highest {current : Int32} (hcurrent : current.toInt = life.version)
    {out : List VersionRecord} {holds : VersionRecord → Bool}
    (hdescending : out.Pairwise fun a b => b.version < a.version)
    (hfound : ∀ number : Int32, (∃ v ∈ out, holds v = true ∧ v.version = number) ↔
      ∃ n : Nat, number.toInt = n ∧ life.Accepts inGrace x n) (number : Int32) :
    (out.find? holds).map VersionRecord.version = some number ↔
      ∃ n : Nat, number.toInt = n ∧ Highest inGrace life x n := by
  rw [find?_descending hdescending, hfound number]
  constructor
  · rintro ⟨⟨n, hn, haccepts⟩, hmax⟩
    refine ⟨n, hn, haccepts, fun m hm => ?_⟩
    obtain ⟨other, hother⟩ := hm.exists_number hcurrent
    obtain ⟨v, hv, hholds, rfl⟩ := (hfound other).mpr ⟨m, hother, hm⟩
    have hle := Int32.le_iff_toInt_le.mp (hmax v hv hholds)
    omega
  · rintro ⟨n, hn, haccepts, hmax⟩
    refine ⟨⟨n, hn, haccepts⟩, fun v hv hholds => ?_⟩
    obtain ⟨m, hm, haccepts'⟩ := (hfound v.version).mp ⟨v, hv, hholds, rfl⟩
    have hle := hmax m haccepts'
    rw [Int32.le_iff_toInt_le]
    omega

/-- What `verify` answers to a caller that is not locked out. -/
theorem verify_exec (h : Agrees A (· ≤ t) ledger w) (huniform : ∀ name life, ledger name = some life → life.Uniform)
    (cfg : AuthConfig) (clientIp : String) (peer : IpAddr) {d : Draws} (hd : d.now = t) (checkAt recordAt : Int64)
    (hname : isValidSecretName name = true) (hx : x.isEmpty = false)
    (hlock : ((checkVerify A cfg peer name checkAt).exec A w).1 = .ok ()) :
    ∃ answer : Option Int32, ((verify A cfg name clientIp peer x d checkAt recordAt).exec A w).1 =
        .ok ⟨answer.isSome, answer⟩ ∧
      ∀ number, answer = some number ↔ ∃ life, ledger name = some life ∧ ∃ n : Nat, number.toInt = n ∧
        Highest (fun p => p.BeforeEnd t ∧ t < Int64.maxValue) life x n := by
  have hchecked : (checkVerify A cfg peer name checkAt).exec A w = (.ok (), w) := by
    obtain ⟨r, hr⟩ := checkKey_exec (A := A) cfg (verifyKey cfg peer name) checkAt w
    obtain rfl : r = .ok () := (congrArg Prod.fst hr).symm.trans hlock
    exact hr
  have hknown : knownName name = .ok () := if_pos hname
  have hpresented : ¬ x.isEmpty = true := by
    rw [hx]
    exact Bool.false_ne_true
  rw [verify, Call.exec_bind_ok (ensure_exec hknown), Call.exec_bind_ok hchecked, if_neg hpresented]
  cases hlife : ledger name with
  | none =>
      have hread : (Call.read (RedbStore.secret A.codec name)).exec A w = (.ok none, w) := by
        rw [Call.exec_read, secret_eq_none h.vault.store (h.not_stored hlife)]
        rfl
      refine ⟨none, (congrArg Prod.fst (Call.exec_bind_ok hread)).trans (verifyInvalid_exec ..), fun number => ?_⟩
      exact ⟨nofun, fun ⟨life, hsome, _⟩ => nomatch hsome⟩
  | some life =>
      obtain ⟨secret, hs, htells, _, hformat, _⟩ := h.stored hlife
      have hread : (Call.read (RedbStore.secret A.codec name)).exec A w = (.ok (some secret), w) := by
        rw [Call.exec_read, secret_eq_ok.mpr hs]
        rfl
      obtain ⟨out, hout, hdescending, hmem⟩ := liveVersions_total h.vault.store name t
      have hlive : (Call.read (RedbStore.liveVersions A.codec name d.now)).exec A w = (.ok out, w) := by
        rw [Call.exec_read, hd, hout]
        rfl
      let holds (v : VersionRecord) : Bool := ((w.view A name).payload v.version).any (·.verified = x)
      have hsearch : verifyVersions A name secret.format x out = .ok ((out.find? holds).map VersionRecord.version) := by
        refine verifyVersions_eq fun v hv => ?_
        obtain ⟨_, hone, hrow, hall⟩ := (hmem v).mp hv
        rw [hformat]
        exact live_opens h (huniform name life hlife) hs htells hone hrow hall
      have hanswer : (Call.ofExcept id (verifyVersions A name secret.format x out)).exec A w =
          (.ok ((out.find? holds).map VersionRecord.version), w) := by
        rw [Call.exec_ofExcept, hsearch]
        rfl
      refine ⟨(out.find? holds).map VersionRecord.version, ?_, fun number => ?_⟩
      · rw [Call.exec_bind_ok hread]
        dsimp only
        rw [Call.exec_bind_ok hlive, Call.exec_bind_ok hanswer]
        cases (out.find? holds).map VersionRecord.version with
        | none => exact verifyInvalid_exec ..
        | some version => exact congrArg Prod.fst (Call.exec_bind_ok (audit_exec ..))
      · have hfound (number : Int32) : (∃ v ∈ out, holds v = true ∧ v.version = number) ↔
            ∃ n : Nat, number.toInt = n ∧ life.Accepts (fun p => p.BeforeEnd t ∧ t < Int64.maxValue) x n := by
          rw [← accepts_iff h hs htells number]
          constructor
          · rintro ⟨v, hv, hholds, rfl⟩
            exact ⟨⟨v, rfl, ((hmem v).mp hv).2⟩, hholds⟩
          · rintro ⟨⟨v, rfl, hrow⟩, hholds⟩
            exact ⟨v, (hmem v).mpr ⟨hname, hrow⟩, hholds, rfl⟩
        rw [search_highest htells.count hdescending hfound]
        exact ⟨fun hhighest => ⟨life, rfl, hhighest⟩, fun ⟨_, hsome, hhighest⟩ => Option.some.inj hsome ▸ hhighest⟩

end Verify

/-! ## A version in its grace period -/

section Graced
variable {C : Codec} {S : Int64 → Prop} {ledger : Ledger} {w : World} {name : String}

/-- An update of the value. -/
def valueRequest (value : String) : UpdateSecretRequest where
  value := some value
  username := none
  password := none
  description := none
  rotationIntervalSecs := none
  gracePeriodSecs := none

theorem nextVersion_of_lt {current : Int32} (h : current.toInt < 2 ^ 31 - 1) :
    nextVersion current = some (current + 1) := by
  unfold nextVersion checkedSucc
  rw [if_neg]
  rintro rfl
  exact absurd h (by decide)

/-- An update of the value of a secret is committed. -/
theorem update_value_commits (h : Agrees (nodeWith C) S ledger w) {life : Life} (hlife : ledger name = some life)
    {text : String} (hpayload : life.payload = .value text) (hroom : life.version < 2 ^ 31 - 1)
    (hstate : w.tables.kmsRewrap = .empty) (actor value : String) (hvalue : validateValue value = .ok ()) (now : Int64)
    (key : Nat) :
    (ServiceCall.update actor name (valueRequest value) (drawsOf now key "")).commits (nodeWith C) w = true := by
  obtain ⟨secret, hs, htells, _, hformat, _⟩ := h.stored hlife
  obtain ⟨hname, hpos⟩ := h.vault.store.valid name secret hs
  obtain ⟨prev, hprev, hnone⟩ := h.vault.store.current name secret hs
  have hvalued : secret.format = .opaqueValue := by
    rw [hformat, hpayload]
    rfl
  have hcount := htells.count
  have hnext : nextVersion secret.currentVersion = some (secret.currentVersion + 1) := nextVersion_of_lt (by omega)
  obtain ⟨hone, hne⟩ := versionKey_nextVersion hname hpos hnext
  let x := sealingOf (nodeWith C) name (secret.currentVersion + 1) (.value value) now key
  have hwritten : (updatePayload (nodeWith C) name secret (valueRequest value)).exec (nodeWith C) w =
      (.ok (.value value), w) := by
    unfold updatePayload
    rw [hvalued]
    exact Call.exec_bind_ok (ensure_exec hvalue)
  have hseal : (sealVersion (nodeWith C) name (secret.currentVersion + 1) (.value value) (drawsOf now key "")).exec
      (nodeWith C) w = (.ok x, w) :=
    Proc.exec_of_reaches (seal_runs (K := fun _ _ => True) trivial trivial hstate)
  have hcommit : (updateCommit (nodeWith C) name (valueRequest value) (drawsOf now key "")).exec (nodeWith C) w =
      (Call.submit (nodeWith C) (updateVersionCommand name secret (valueRequest value) now x.record) (.record secret)
        (some x)).exec (nodeWith C) w :=
    updateCommit_version_exec rfl hs (by rw [hvalued]; rfl) (by rw [hvalued]; rfl) hwritten hnext hseal
  have hsubmit : ∃ w₁, (Call.submit (nodeWith C) (updateVersionCommand name secret (valueRequest value) now x.record)
      (.record secret) (some x)).exec (nodeWith C) w = (.ok (), w₁) :=
    ⟨_, submit_exec _ (putVersion_eq x.record hname hone hs rfl hne hprev hnone _ _ _ _ _)⟩
  obtain ⟨w₁, hsubmit⟩ := hsubmit
  rw [ServiceCall.commits, hcommit.trans hsubmit]
  rfl

/-- A call on a secret leaves the state of the passes alone. -/
theorem kmsRewrap_secretOp {A : AppState} {op : Op} (h : SecretOp name op) :
    (w.perform A op).tables.kmsRewrap = w.tables.kmsRewrap := by
  cases h with
  | write hsubject basis sealing =>
      have harea := area_of_subject hsubject
      exact kmsRewrap_commit (harea ▸ nofun) (harea ▸ nofun)
  | quiet h =>
      cases h with
      | read => rfl
      | kms => rfl
      | attempt a name version =>
          obtain ⟨_, _, hw⟩ := perform_attempt_eq A w a name version
          rw [hw]
      | audit entry => exact kmsRewrap_commit nofun nofun
      | failure => exact kmsRewrap_commit nofun nofun

theorem kmsRewrap_exec {A : AppState} {α : Type} {c : Call α} (h : c.run.Only (SecretOp name)) (reply : α → Reply)
    (w : World) : ((c.reply reply).exec (World.perform A) w).2.tables.kmsRewrap = w.tables.kmsRewrap := by
  have honly : (c.reply reply).Only (SecretOp name) :=
    Proc.only_bind_ok (f := fun a => pure (reply a)) h fun _ => trivial
  exact Proc.exec_of_only (J := fun w' => w'.tables.kmsRewrap = w.tables.kmsRewrap) honly
    (fun _ _ hop hw => (kmsRewrap_secretOp hop).trans hw) rfl

theorem kmsRewrap_create (A : AppState) (actor : String) (req : CreateSecretRequest) (d : Draws) (w : World) :
    (((ServiceCall.create actor req d).body A).exec (World.perform A) w).2.tables.kmsRewrap = w.tables.kmsRewrap :=
  have honly : (createSecretCall A actor req d).run.Only (SecretOp req.name) := createSecretCall_only A actor req d
  kmsRewrap_exec honly .value w

/-- A secret with a grace period of ten seconds. -/
def graceRequest : CreateSecretRequest := { opaqueRequest "a" "v" with gracePeriodSecs := some 10 }

/-- It is created, and its value is updated at time `now`. -/
def graceCalls (now : Int64) : List ServiceCall :=
  [.create "root" graceRequest (drawsOf 0 1 ""), .update "root" "a" (valueRequest "w") (drawsOf now 2 "")]

theorem graceCalls_committed (C : Codec) (now : Int64) :
    committed (nodeWith C) freshWorld (graceCalls now) = graceCalls now := by
  let create : ServiceCall := .create "root" graceRequest (drawsOf 0 1 "")
  have hcheck : checkCreate (nodeWith C) graceRequest "" = .ok (10, .value "v") := rfl
  have hcreate : create.commits (nodeWith C) freshWorld = true :=
    create_commits C "root" 0 1 hcheck isValidSecretName_a rfl rfl
  have hagrees := agrees_exec (S := fun _ => True) (agrees_start (A := nodeWith C) freshWorld_start) create nofun
  rw [if_pos hcreate] at hagrees
  have hstate : (create.leaves (nodeWith C) freshWorld).tables.kmsRewrap = .empty :=
    kmsRewrap_create (nodeWith C) "root" graceRequest (drawsOf 0 1 "") freshWorld
  have hlife : Ledger.after (fun _ => none) create "a" = some ⟨.manual, none, 10, .value "v", []⟩ := rfl
  have hupdate := update_value_commits hagrees hlife rfl (by decide) hstate "root" "w" rfl now 2
  rw [graceCalls, committed, if_pos hcreate, committed, if_pos hupdate]
  rfl

theorem ledgerOf_graceCalls (now : Int64) :
    ledgerOf (graceCalls now) "a" = some ⟨.manual, none, 10, .value "w", [⟨.value "v", now, 10⟩]⟩ := rfl

/-- A node that locks nobody out. -/
def noLockout : AuthConfig where
  authMaxFailures := 0
  authLockoutSecs := 0
  authWindowSecs := 0
  tokenTouchSecs := 0
  trustProxy := false
  allowlist := fun _ => true
  showIp := fun _ => "127.0.0.1"
  parseIp := fun _ => none
  fingerprint := utf8

theorem checkVerify_noLockout {A : AppState} (peer : IpAddr) (now : Int64) (w : World) :
    ((checkVerify A noLockout peer name now).exec A w).1 = .ok () := by
  have hoff : noLockout.authMaxFailures = 0 := rfl
  unfold checkVerify checkKey
  rw [if_pos hoff]
  rfl

end Graced

/-- However calls ran one after the other, and however versions were swept until time `t`: at time `t` a value is
valid exactly if it is that of the current version, or of one superseded at a time `s` under a grace period `g` with
`t < s + g`, as long as `t` is not the largest time. The answer names the highest such version. -/
theorem verify_follows_grace (A : AppState) (cfg : AuthConfig) (w : World) (hw : w.Start) (calls : List ServiceCall)
    (t : Int64) (hsweep : ∀ now, .expireGrace now ∈ calls → now ≤ t) (name clientIp x : String)
    (peer : IpAddr) (d : Draws)
    (checkAt recordAt : Int64) (hd : d.now = t) (hx : x.isEmpty = false)
    (hlock : ((checkVerify A cfg peer name checkAt).exec A
      (System.serial (World.perform A) (ServiceCall.body A) w calls)).1 = .ok ()) :
    let inGrace := fun p : Past => p.BeforeEnd t ∧ t < Int64.maxValue
    let entry := ledgerOf (committed A w calls) name
    let result := ((verify A cfg name clientIp peer x d checkAt recordAt).exec A
      (System.serial (World.perform A) (ServiceCall.body A) w calls)).1
    (isValidSecretName name = true → ∃ r, result = .ok r) ∧
    ((∃ r, result = .ok r ∧ r.valid = true) ↔ ∃ life n, entry = some life ∧ life.Accepts inGrace x n) ∧
    ∀ r, result = .ok r → r.valid = true →
      ∃ life n version, entry = some life ∧ Highest inGrace life x n ∧
        r.version = some version ∧ version.toInt = n := by
  intro inGrace entry result
  have hagrees : Agrees A (· ≤ t) (ledgerOf (committed A w calls))
      (System.serial (World.perform A) (ServiceCall.body A) w calls) := agrees_serial calls hsweep (agrees_start hw)
  by_cases hname : isValidSecretName name = true
  · obtain ⟨answer, hanswer, hhighest⟩ := verify_exec (x := x) hagrees (uniform_ledgerOf _) cfg clientIp peer hd checkAt
      recordAt hname hx hlock
    have hvalid (r : VerifyResponse) (hr : result = .ok r) (hv : r.valid = true) : ∃ version,
        answer = some version := by
      obtain rfl := Except.ok.inj (hanswer.symm.trans hr)
      exact Option.isSome_iff_exists.mp hv
    refine ⟨fun _ => ⟨_, hanswer⟩, ⟨?_, ?_⟩, fun r hr hv => ?_⟩
    · rintro ⟨r, hr, hv⟩
      obtain ⟨version, hversion⟩ := hvalid r hr hv
      obtain ⟨life, hlife, n, _, haccepts, _⟩ := (hhighest version).mp hversion
      exact ⟨life, n, hlife, haccepts⟩
    · rintro ⟨life, n, hlife, haccepts⟩
      obtain ⟨m, hm⟩ := haccepts.exists_highest
      obtain ⟨secret, _, htells, _⟩ := hagrees.stored hlife
      obtain ⟨version, hversion⟩ := hm.1.exists_number htells.count
      have hsome := (hhighest version).mpr ⟨life, hlife, m, hversion, hm⟩
      exact ⟨_, hanswer, by rw [hsome]; rfl⟩
    · obtain ⟨version, hversion⟩ := hvalid r hr hv
      obtain ⟨life, hlife, n, hn, hm⟩ := (hhighest version).mp hversion
      obtain rfl := Except.ok.inj (hanswer.symm.trans hr)
      exact ⟨life, n, version, hlife, hm, hversion, hn⟩
  · have hunknown : result = .error .notFound := by
      have hknown : (Call.ensure (knownName name)).exec A
          (System.serial (World.perform A) (ServiceCall.body A) w calls) =
          (.error .notFound, System.serial (World.perform A) (ServiceCall.body A) w calls) := by
        rw [Call.exec_ensure, knownName, if_neg hname]
      exact congrArg Prod.fst (Call.exec_bind_error hknown)
    have hnone : ¬ ∃ life, entry = some life := by
      rintro ⟨life, hlife⟩
      obtain ⟨secret, hs, _⟩ := hagrees.stored hlife
      exact hname (hagrees.vault.store.valid name secret hs).1
    refine ⟨fun h => absurd h hname, ⟨?_, ?_⟩, fun r hr => ?_⟩
    · rintro ⟨r, hr, _⟩
      cases hunknown.symm.trans hr
    · rintro ⟨life, n, hlife, _⟩
      exact absurd ⟨life, hlife⟩ hnone
    · cases hunknown.symm.trans hr

/-- Two seconds after an update the value before is still valid. -/
theorem graced_value_is_valid :
    let A := nodeWith jsonCodec
    let after := System.serial (World.perform A) (ServiceCall.body A) freshWorld (graceCalls 5)
    freshWorld.Start ∧ ((checkVerify A noLockout (.v4 0) "a" 7).exec A after).1 = .ok () ∧
      ∃ r, ((verify A noLockout "a" "127.0.0.1" (.v4 0) "v" (drawsOf 7 0 "") 7 7).exec A after).1 = .ok r ∧
        r.valid = true ∧ r.version = some 1 := by
  intro A after
  have hsweep : ∀ now, ServiceCall.expireGrace now ∈ graceCalls 5 → now ≤ 7 := by simp [graceCalls]
  have hlock : ((checkVerify A noLockout (.v4 0) "a" 7).exec A after).1 = .ok () := checkVerify_noLockout ..
  obtain ⟨_, hvalid, hversion⟩ :=
    verify_follows_grace A noLockout freshWorld freshWorld_start (graceCalls 5) 7 hsweep "a"
    "127.0.0.1" "v" (.v4 0) (drawsOf 7 0 "") 7 7 rfl (by decide) hlock
  rw [graceCalls_committed jsonCodec 5, ledgerOf_graceCalls] at hvalid hversion
  obtain ⟨r, hr, hv⟩ := hvalid.mpr ⟨_, 1, rfl, Or.inr ⟨0, _, rfl, rfl, rfl, by decide, by decide⟩⟩
  obtain ⟨life, n, version, hlife, hhighest, hrversion, hn⟩ := hversion r hr hv
  cases hlife
  refine ⟨freshWorld_start, hlock, r, hr, hv, ?_⟩
  have hone : n = 1 := by
    rcases hhighest.1 with ⟨_, hpayload⟩ | ⟨i, p, hp, rfl, _⟩
    · exact absurd hpayload (by decide)
    · have hi : i < 1 := (List.getElem?_eq_some_iff.mp hp).1
      omega
  rw [hrversion, show version = 1 from Int32.toInt_inj.mp (hn.trans (by rw [hone]; rfl))]

/-- At the last time the value before is not accepted, though its grace period has not ended. -/
theorem expired_at_last_time :
    let A := nodeWith jsonCodec
    let t := Int64.maxValue
    let after := System.serial (World.perform A) (ServiceCall.body A) freshWorld (graceCalls t)
    let result := ((verify A noLockout "a" "127.0.0.1" (.v4 0) "v" (drawsOf t 0 "") t t).exec A after).1
    freshWorld.Start ∧ (∀ now, .expireGrace now ∈ graceCalls t → now ≤ t) ∧
      ((checkVerify A noLockout (.v4 0) "a" t).exec A after).1 = .ok () ∧
      ¬ ((∃ r, result = .ok r ∧ r.valid = true) ↔
        ∃ life n, ledgerOf (committed A freshWorld (graceCalls t)) "a" = some life ∧
          life.Accepts (Past.BeforeEnd t) "v" n) := by
  intro A t after result
  have hsweep : ∀ now, ServiceCall.expireGrace now ∈ graceCalls t → now ≤ t := by simp [graceCalls]
  have hlock : ((checkVerify A noLockout (.v4 0) "a" t).exec A after).1 = .ok () := checkVerify_noLockout ..
  have hagrees : Agrees A (· ≤ t) (ledgerOf (committed A freshWorld (graceCalls t))) after :=
    agrees_serial (graceCalls t) hsweep (agrees_start freshWorld_start)
  obtain ⟨answer, hanswer, hhighest⟩ :=
    verify_exec (x := "v") hagrees (uniform_ledgerOf _) noLockout "127.0.0.1" (.v4 0)
    (d := drawsOf t 0 "") rfl t t isValidSecretName_a (by decide) hlock
  refine ⟨freshWorld_start, hsweep, hlock, fun hiff => ?_⟩
  rw [graceCalls_committed jsonCodec t, ledgerOf_graceCalls] at hiff
  obtain ⟨r, hr, hvalid⟩ := hiff.mpr ⟨_, 1, rfl, Or.inr ⟨0, _, rfl, rfl, rfl, by decide⟩⟩
  obtain rfl := Except.ok.inj (hanswer.symm.trans hr)
  obtain ⟨version, hversion⟩ := Option.isSome_iff_exists.mp hvalid
  obtain ⟨life, hlife, n, _, haccepts, _⟩ := (hhighest version).mp hversion
  rw [graceCalls_committed jsonCodec t, ledgerOf_graceCalls] at hlife
  cases hlife
  rcases haccepts with ⟨_, hpayload⟩ | ⟨_, _, _, _, _, _, hlt⟩
  · exact absurd hpayload (by decide)
  · exact lt_irrefl _ hlt

end HyperionVault
