import HyperionVault.Lib.Run
import HyperionVault.Raft.Node
import HyperionVault.Store.Areas

/-!
# Tokens and their names

`TOKENS` is keyed by fingerprints and `TOKENS_BY_NAME` by names. The commands keep the two tables in one-to-one
correspondence: each checks the key that it is about to write, and a token that is rewritten keeps its name and its
fingerprint.

* `TokenIndex` : the correspondence, `tokenIndex_command` : every command other than a restore keeps it;
* `TokenIndex.revoke` : revoking by name acts on the token of that name;
* `token_index` : every state that is reached without a restore.
-/

namespace HyperionVault
open Lib

structure TokenIndex (C : Codec) (t : Tables) : Prop where
  decodes : Decodes C.token t.tokens
  keyed : ∀ fingerprint token, recordAt C.token t.tokens fingerprint = some token → token.fingerprint = fingerprint
  named : ∀ name fingerprint, t.tokensByName.get name = some fingerprint →
    ∃ token, recordAt C.token t.tokens fingerprint = some token ∧ token.name = name
  reached : ∀ fingerprint token, recordAt C.token t.tokens fingerprint = some token →
    t.tokensByName.get token.name = some fingerprint

section Index
variable {C : Codec} {t t' : Tables} {nodeId : Nat}

theorem tokenIndex_empty (C : Codec) : TokenIndex C .empty where
  decodes := decodes_empty
  keyed := fun _ _ h => nomatch h
  named := fun _ _ h => nomatch h
  reached := fun _ _ h => nomatch h

theorem TokenIndex.of_same (h : TokenIndex C t) (htokens : t'.tokens = t.tokens)
    (hnames : t'.tokensByName = t.tokensByName) : TokenIndex C t' := by
  obtain ⟨hdecodes, hkeyed, hnamed, hreached⟩ := h
  rw [← htokens] at hdecodes hkeyed hnamed hreached
  rw [← hnames] at hnamed hreached
  exact ⟨hdecodes, hkeyed, hnamed, hreached⟩

/-- A new fingerprint under a new name. -/
theorem TokenIndex.add (h : TokenIndex C t) {token : TokenRecord} (hfingerprint : t.tokens.get token.fingerprint = none)
    (hname : t.tokensByName.get token.name = none) :
    TokenIndex C { t with
      tokensByName := t.tokensByName.insert token.name token.fingerprint
      tokens := t.tokens.insert token.fingerprint (C.token.encode token) } := by
  refine ⟨decodes_insert h.decodes _ _, forall_recordAt_insert h.keyed rfl, fun name fingerprint hindex => ?_,
    forall_recordAt_insert (fun fingerprint found hfound => ?_) (Table.get_insert_self _ _ _)⟩
  · dsimp only at hindex ⊢
    rw [Table.get_insert] at hindex
    split_ifs at hindex with heq
    · cases hindex
      exact ⟨token, by rw [recordAt_insert, if_pos rfl], heq⟩
    · obtain ⟨other, hother, hnamed⟩ := h.named name fingerprint hindex
      have hne : token.fingerprint ≠ fingerprint := by
        rintro rfl
        rw [recordAt, hfingerprint] at hother
        cases hother
      exact ⟨other, by rw [recordAt_insert, if_neg hne, hother], hnamed⟩
  · have hreached := h.reached fingerprint found hfound
    refine (Table.get_insert_of_ne _ _ fun hsame => ?_).trans hreached
    rw [← hsame, hname] at hreached
    cases hreached

/-- A token that is rewritten with its name and its fingerprint. -/
theorem TokenIndex.rewrite (h : TokenIndex C t) {fingerprint : Bytes} {token token' : TokenRecord}
    (htoken : recordAt C.token t.tokens fingerprint = some token) (hname : token'.name = token.name)
    (hfingerprint : token'.fingerprint = token.fingerprint) :
    TokenIndex C { t with tokens := t.tokens.insert fingerprint (C.token.encode token') } := by
  have hreached := h.reached fingerprint token htoken
  rw [← hname] at hreached
  refine ⟨decodes_insert h.decodes _ _,
    forall_recordAt_insert h.keyed (hfingerprint.trans (h.keyed fingerprint token htoken)),
    fun name other hindex => ?_, forall_recordAt_insert h.reached hreached⟩
  obtain ⟨found, hfound, hnamed⟩ := h.named name other hindex
  by_cases heq : fingerprint = other
  · refine ⟨token', by rw [recordAt_insert, if_pos heq], ?_⟩
    rw [heq] at htoken
    rw [hname, ← hnamed, Option.some.inj (htoken.symm.trans hfound)]
  · exact ⟨found, by rw [recordAt_insert, if_neg heq, hfound], hnamed⟩

theorem tokenIndex_command (h : TokenIndex C t) {command : Command} (hrestore : command.area ≠ .everything)
    (hok : applyCommand C nodeId command t = (.ok (), t')) : TokenIndex C t' := by
  by_cases harea : command.area = .tokens
  · cases command with
    | addToken token =>
        obtain ⟨hfingerprint, hname, rfl⟩ := addToken_ok hok
        exact h.add hfingerprint hname
    | revokeToken name revokedAt =>
        obtain ⟨fingerprint, token, _, htoken, _, rfl⟩ := revokeToken_ok hok
        exact h.rewrite htoken rfl rfl
    | touchToken fingerprint at_ =>
        rcases touchToken_ok hok with rfl | ⟨token, htoken, rfl⟩
        · exact h
        · exact h.rewrite htoken rfl rfl
    | _ => cases harea
  · obtain ⟨htokens, hnames⟩ := (applyCommand_area hok).same .tokens harea hrestore nofun
    exact h.of_same htokens hnames

/-- Exactly one name leads to a token. -/
theorem TokenIndex.existsUnique (h : TokenIndex C t) {fingerprint : Bytes} (hrow : (t.tokens.get fingerprint).isSome) :
    ∃! name, t.tokensByName.get name = some fingerprint := by
  obtain ⟨token, htoken⟩ := recordAt_isSome h.decodes hrow
  refine ⟨token.name, h.reached fingerprint token htoken, fun name hname => ?_⟩
  obtain ⟨found, hfound, rfl⟩ := h.named name fingerprint hname
  rw [Option.some.inj (htoken.symm.trans hfound)]

/-- Revoking by name reaches the token of that name and no other row. -/
theorem TokenIndex.revoke (h : TokenIndex C t) {fingerprint : Bytes} {token : TokenRecord}
    (htoken : recordAt C.token t.tokens fingerprint = some token)
    (hvalid : token.revokedAt = none) (revokedAt : Int64) :
    RedbStore.apply C nodeId (.revokeToken token.name revokedAt) t = (.ok (), { t with
      tokens := t.tokens.insert fingerprint (C.token.encode { token with revokedAt := some revokedAt }) }) := by
  obtain ⟨bytes, hget, hdecode⟩ := get_of_recordAt htoken
  simp only [RedbStore.apply, applyCommand, revokeToken, h.reached fingerprint token htoken, hget,
    decodeRow_ok.mpr hdecode,
    hvalid, Option.isSome_none, Bool.false_eq_true, if_false]

end Index

/-- Every state that commands reach from the empty store without a restore, on either path. A row of `TOKENS` has the
fingerprint of its record as key, a name leads to a token of that name, exactly one name leads to each token, and
revoking by that name revokes this token and changes nothing else. -/
theorem token_index (C : Codec) (nodeId : Nat) (arrivals : List Arrival)
    (hrestore : ∀ arrival ∈ arrivals, ∀ data, arrival.command ≠ .restoreDatabase data) :
    let t := run (arrive C nodeId) .empty arrivals
    (∀ fingerprint bytes, t.tokens.get fingerprint = some bytes →
      ∃ token, C.token.decode bytes = some token ∧ token.fingerprint = fingerprint) ∧
    (∀ name fingerprint, t.tokensByName.get name = some fingerprint →
      ∃ token, recordAt C.token t.tokens fingerprint = some token ∧ token.name = name) ∧
    (∀ fingerprint, (t.tokens.get fingerprint).isSome → ∃! name, t.tokensByName.get name = some fingerprint) ∧
    ∀ fingerprint token revokedAt, recordAt C.token t.tokens fingerprint = some token → token.revokedAt = none →
      RedbStore.apply C nodeId (.revokeToken token.name revokedAt) t = (.ok (), { t with
        tokens := t.tokens.insert fingerprint (C.token.encode { token with revokedAt := some revokedAt }) }) := by
  intro t
  have hstep (t : Tables) (arrival : Arrival) (ht : TokenIndex C t)
      (hcommand : ∀ data, arrival.command ≠ .restoreDatabase data) : TokenIndex C (arrive C nodeId t arrival) := by
    rcases @arrive_cases C nodeId t arrival with hsame | hok
    · rw [hsame]
      exact ht
    · refine tokenIndex_command ht (fun harea => ?_) hok
      cases hc : arrival.command with
      | restoreDatabase data => exact hcommand data hc
      | _ =>
          rw [hc] at harea
          cases harea
  have hindex : TokenIndex C t :=
    run_inv_of_allSteps hstep (tokenIndex_empty C) (allSteps_of_forall hrestore)
  refine ⟨fun fingerprint bytes hget => ?_, hindex.named, fun fingerprint => hindex.existsUnique,
    fun fingerprint token revokedAt htoken hvalid => hindex.revoke htoken hvalid revokedAt⟩
  obtain ⟨token, hdecode⟩ := Option.isSome_iff_exists.mp (hindex.decodes fingerprint bytes hget)
  exact ⟨token, hdecode, hindex.keyed fingerprint token (recordAt_of_get hget hdecode)⟩

/-- A token that is added, and one that is refused because it has the same fingerprint. -/
def tokenArrivals : List Arrival :=
  [.direct (.addToken ⟨"a", none, [1], 0, none, none⟩), .replicated (.addToken ⟨"b", none, [1], 0, none, none⟩)]

theorem tokenArrivals_index :
    let t := run (arrive jsonCodec 1) .empty tokenArrivals
    (t.tokens.get [1]).isSome = true ∧ ∃! name, t.tokensByName.get name = some [1] :=
  have hrow (C : Codec) : ((run (arrive C 1) .empty tokenArrivals).tokens.get [1]).isSome = true := rfl
  ⟨hrow jsonCodec, (token_index jsonCodec 1 tokenArrivals (by simp [tokenArrivals, Arrival.command])).2.2.1 [1]
    (hrow jsonCodec)⟩

end HyperionVault
