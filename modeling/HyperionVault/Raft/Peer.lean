import HyperionVault.Api.Guards
import HyperionVault.Service.Locking

/-!
# Authentication between the nodes

`PeerAuth` of `raft/peer.rs`: with a cluster token, a node sends it as a bearer token with every request to another
node, and compares the fingerprint of what it is sent with that of its own. The sender writes the token as it is
configured; the receiver trims what it reads. The hash, SHA-256 in the source, is a parameter.

* `PeerAuth`, `PeerAuth.new`, `PeerAuth.accepts` : what a node sends and accepts;
* `presentedToken` : the token in a header;
* `accepts_presented_iff` : the headers that a node with a token accepts;
* `AlikeNodesAgree`, `alike_nodes_agree_iff` : the tokens with which nodes configured alike accept each other.
-/

namespace HyperionVault
open Lib

structure PeerAuth where
  header : Option String
  fingerprint : Option Bytes
  required : Bool

/-- What stands after the word `Bearer` in a header. -/
def presentedToken (value : String) : Option (List Char) :=
  (stripStart "Bearer " value).or (stripStart "bearer " value)

namespace PeerAuth
variable (fingerprint : String → Bytes)

def new (token : Option String) (required : Bool) : Except String PeerAuth :=
  if required && token.isNone then
    .error "VAULT_CLUSTER_AUTH_REQUIRED=true needs VAULT_CLUSTER_TOKEN to be set"
  else
    .ok {
      header := token.map fun token => "Bearer " ++ token
      fingerprint := token.map fingerprint
      required := required }

/-- `auth::verify` of the core crate. -/
def verify (token : String) (expected : Bytes) : Bool := fingerprint token == expected

def accepts (auth : PeerAuth) (presented : Option String) : Bool :=
  match auth.fingerprint with
  | none => true
  | some expected =>
      match presented.bind presentedToken with
      | some token => verify fingerprint (String.ofList (trim token)) expected
      | none => !auth.required

end PeerAuth

theorem stripStart_append (start text : String) : stripStart start (start ++ text) = some text.toList := by
  have hstart : start.toList.isPrefixOf (start ++ text).toList = true := by
    rw [String.toList_append]
    exact List.isPrefixOf_iff_prefix.mpr (List.prefix_append _ _)
  rw [stripStart, if_pos hstart, String.toList_append, List.drop_left]

section Accepts
variable {fingerprint : String → Bytes} {token : String} {required : Bool} {auth : PeerAuth}

theorem new_some (fingerprint : String → Bytes) (token : String) (required : Bool) :
    PeerAuth.new fingerprint (some token) required =
      .ok ⟨some ("Bearer " ++ token), some (fingerprint token), required⟩ := by
  cases required <;> rfl

/-- A node with a token accepts a header with a token of the same fingerprint, and, unless it requires one, a header
without any. -/
theorem accepts_presented_iff (hnew : PeerAuth.new fingerprint (some token) required = .ok auth) {presented : Option String} :
    auth.accepts fingerprint presented = true ↔
      (∃ sent, presented.bind presentedToken = some sent ∧
        fingerprint (String.ofList (trim sent)) = fingerprint token) ∨
      (presented.bind presentedToken = none ∧ required = false) := by
  cases (new_some fingerprint token required).symm.trans hnew
  unfold PeerAuth.accepts PeerAuth.verify
  cases hsent : presented.bind presentedToken with
  | none => simp
  | some sent => simp

/-- A node accepts its own header if what it reads there has the fingerprint of its token. -/
theorem accepts_header_iff (hnew : PeerAuth.new fingerprint (some token) required = .ok auth) :
    auth.accepts fingerprint (some ("Bearer " ++ token)) = true ↔
      fingerprint (String.ofList (trim token.toList)) = fingerprint token := by
  have hsent : (some ("Bearer " ++ token)).bind presentedToken = some token.toList := by
    rw [Option.bind_some, presentedToken, stripStart_append, Option.some_or]
  rw [accepts_presented_iff hnew, hsent]
  simp

/-- A node that requires a token accepts only its own, if no other text has its fingerprint. -/
theorem token_of_accepts (hnew : PeerAuth.new fingerprint (some token) true = .ok auth)
    (hinj : ∀ other, fingerprint other = fingerprint token → other = token) {presented : Option String}
    (h : auth.accepts fingerprint presented = true) :
    ∃ value sent, presented = some value ∧
      (stripStart "Bearer " value = some sent ∨ stripStart "bearer " value = some sent) ∧
      String.ofList (trim sent) = token := by
  rcases (accepts_presented_iff hnew).mp h with ⟨sent, hsent, hfingerprint⟩ | ⟨_, hrequired⟩
  · obtain ⟨value, hvalue, htoken⟩ := Option.bind_eq_some_iff.mp hsent
    refine ⟨value, sent, hvalue, ?_, hinj _ hfingerprint⟩
    rcases Option.or_eq_some_iff.mp htoken with hupper | ⟨_, hlower⟩
    · exact Or.inl hupper
    · exact Or.inr hlower
  · cases hrequired

end Accepts

/-- Whether they require the token or not, nodes with the token accept each other's requests; and one that requires it
accepts only a header with that token. -/
def AlikeNodesAgree (fingerprint : String → Bytes) (token : String) : Prop :=
  ∀ required, ∃ receiver, PeerAuth.new fingerprint (some token) required = .ok receiver ∧
    (∀ required' sender, PeerAuth.new fingerprint (some token) required' = .ok sender →
      receiver.accepts fingerprint sender.header = true) ∧
    (required = true → ∀ presented, receiver.accepts fingerprint presented = true →
      ∃ value sent, presented = some value ∧
        (stripStart "Bearer " value = some sent ∨ stripStart "bearer " value = some sent) ∧
        String.ofList (trim sent) = token)

/-- Nodes that are configured alike agree exactly if there is no white space around their token. -/
theorem alike_nodes_agree_iff (fingerprint : String → Bytes) (token : String)
    (hinj : ∀ other, fingerprint other = fingerprint token → other = token) :
    AlikeNodesAgree fingerprint token ↔ trim token.toList = token.toList := by
  have htrim : trim token.toList = token.toList ↔
      fingerprint (String.ofList (trim token.toList)) = fingerprint token := by
    refine ⟨fun h => by rw [h, String.ofList_toList], fun h => ?_⟩
    rw [← String.toList_ofList (l := trim token.toList), hinj _ h]
  rw [htrim]
  constructor
  · intro h
    obtain ⟨receiver, hreceiver, haccepts, _⟩ := h true
    exact (accepts_header_iff hreceiver).mp (haccepts true _ (new_some fingerprint token true))
  · intro h required
    refine ⟨_, new_some fingerprint token required, fun required' sender hsender => ?_, ?_⟩
    · cases (new_some fingerprint token required').symm.trans hsender
      exact (accepts_header_iff (new_some fingerprint token required)).mpr h
    · rintro rfl presented hpresented
      exact token_of_accepts (new_some fingerprint token true) hinj hpresented

/-! ## A token with a space before it -/

/-- The SHA-256 of the text `s3cret`. -/
def plainFingerprint : Bytes :=
  [30, 193, 194, 107, 80, 213, 211, 197, 141, 149, 131, 24, 26, 248, 7, 102,
   85, 254, 0, 117, 107, 247, 40, 89, 64, 186, 54, 112, 249, 159, 203, 160]

/-- The SHA-256 of the same text after a space. -/
def spacedFingerprint : Bytes :=
  [16, 122, 107, 28, 149, 162, 136, 45, 99, 34, 98, 160, 194, 247, 234, 189,
   86, 159, 250, 170, 70, 238, 50, 27, 178, 19, 113, 8, 233, 189, 128, 230]

/-- A hash that is right about the two texts. -/
def demoHash (text : String) : Bytes :=
  if text = "s3cret" then plainFingerprint else if text = " s3cret" then spacedFingerprint else []

theorem demoHash_plain {other : String} (h : demoHash other = demoHash "s3cret") : other = "s3cret" := by
  by_contra hother
  rw [show demoHash "s3cret" = plainFingerprint from if_pos rfl, demoHash, if_neg hother] at h
  split_ifs at h <;> exact absurd h (by decide)

theorem demoHash_spaced {other : String} (h : demoHash other = demoHash " s3cret") : other = " s3cret" := by
  by_contra hother
  rw [show demoHash " s3cret" = spacedFingerprint by decide, demoHash, if_neg hother] at h
  split_ifs at h <;> exact absurd h (by decide)

theorem plain_token_agrees : trim "s3cret".toList = "s3cret".toList ∧ AlikeNodesAgree demoHash "s3cret" :=
  ⟨by decide, (alike_nodes_agree_iff demoHash "s3cret" fun _ => demoHash_plain).mpr (by decide)⟩

/-- The configuration is accepted, and no node accepts the requests of another, nor its own. -/
theorem spaced_token_splits_cluster : (∀ other, demoHash other = demoHash " s3cret" → other = " s3cret") ∧
    ¬AlikeNodesAgree demoHash " s3cret" ∧
    ∃ cfg, Config.fromEnv (envOf [("VAULT_KMS_MODE", "local"), ("VAULT_CLUSTER_TOKEN", " s3cret"),
        ("VAULT_CLUSTER_AUTH_REQUIRED", "true")]) = .ok cfg ∧
      cfg.clusterToken = some " s3cret" ∧ cfg.clusterAuthRequired = true ∧
      ∀ required, ∃ auth, PeerAuth.new demoHash cfg.clusterToken required = .ok auth ∧
        auth.header = some "Bearer  s3cret" ∧ auth.accepts demoHash auth.header = false := by
  have hrefused : ∀ required auth, PeerAuth.new demoHash (some " s3cret") required = .ok auth →
      auth.accepts demoHash (some "Bearer  s3cret") = false := by
    intro required auth hnew
    rw [Bool.eq_false_iff]
    intro h
    exact absurd ((accepts_header_iff hnew).mp h) (by decide)
  refine ⟨fun _ => demoHash_spaced, fun h => ?_, _, rfl, rfl, rfl, fun required => ?_⟩
  · obtain ⟨receiver, hnew, haccepts, _⟩ := h true
    have hsent := haccepts true _ (new_some demoHash " s3cret" true)
    rw [show (some ("Bearer " ++ " s3cret") : Option String) = some "Bearer  s3cret" from rfl,
      hrefused true receiver hnew] at hsent
    cases hsent
  · exact ⟨_, new_some demoHash " s3cret" required, rfl, hrefused required _ (new_some demoHash " s3cret" required)⟩

end HyperionVault
