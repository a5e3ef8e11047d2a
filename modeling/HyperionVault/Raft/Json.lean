import HyperionVault.Raft.Log
import HyperionVault.Store.Json

/-!
# Raft metadata as JSON

The forms in which `serde_json` writes what `raft/store.rs` keeps in the metadata table. Each begins with
a bracket, so none of them is taken for a `null`.

* `jsonRaftCodec`, `jsonLogCodec` : the codecs they make up;
* `freshDb`, `roleEntry` : a database and entries for concrete runs.
-/

namespace HyperionVault
open Lib

def LogId.json : Json LogId :=
  (Json.object ((Json.object (Json.nat.field "term" |>.and <| Json.nat.field "node_id")).field "leader_id" |>.and <|
    Json.nat.field "index")).iso
    (fun l => ((l.leaderId.term, l.leaderId.nodeId), l.index))
    (fun ((term, nodeId), index) => some ⟨⟨term, nodeId⟩, index⟩)
    (fun _ => rfl)

/-- The keys of the node map are numbers written as texts. -/
def nodeEntry : Json (Nat × BasicNode) :=
  (Json.object (Json.string.field "addr")).entry.iso
    (fun p => (String.ofList (Nat.toDigits 10 p.1), p.2.addr))
    (fun (key, addr) =>
      match Json.parseNat key.toList with
      | some (id, []) => some (id, ⟨addr⟩)
      | _ => none)
    (fun p => by
      have hparse := Json.parseNat_toDigits p.1 delimited_nil
      rw [List.append_nil] at hparse
      simp only [String.toList_ofList, hparse])

def Membership.json : Json Membership :=
  (Json.object ((Json.list (Json.list .nat)).field "configs" |>.and <| (Json.dict nodeEntry).field "nodes")).iso
    (fun m => (m.configs, m.nodes))
    (fun (configs, nodes) => some ⟨configs, nodes⟩)
    (fun _ => rfl)

def optLogId : Json (Option LogId) := LogId.json.option fun _ _ h => by cases h

def StoredMembership.json : Json StoredMembership :=
  (Json.object (optLogId.field "log_id" |>.and <| Membership.json.field "membership")).iso
    (fun m => (m.logId, m.membership))
    (fun (logId, membership) => some ⟨logId, membership⟩)
    (fun _ => rfl)

def SnapshotData.json : Json SnapshotData :=
  (Json.object ((rowsJson .string).field "secrets" |>.and <| (rowsJson .string).field "versions" |>.and <|
    (rowsJson .string).field "roles" |>.and <| (rowsJson .bytes).field "tokens" |>.and <|
    (rowsJson .string).field "tokens_by_name" |>.and <| (rowsJson .string).field "kms_rewrap" |>.and <|
    optLogId.field "last_applied" |>.and <| StoredMembership.json.field "membership")).iso
    (fun d => (d.secrets, d.versions, d.roles, d.tokens, d.tokensByName, d.kmsRewrap, d.lastApplied, d.membership))
    (fun (secrets, versions, roles, tokens, tokensByName, kmsRewrap, lastApplied, membership) =>
      some ⟨secrets, versions, roles, tokens, tokensByName, kmsRewrap, lastApplied, membership⟩)
    (fun _ => rfl)

/-! ## Entries and votes -/

/-- `"Blank"`, or an object whose one field is a command or a membership. -/
def EntryPayload.json : Json EntryPayload :=
  ((Json.tag "Blank").either ((Json.object (Command.json.field "Normal")).either
    (Json.object (Membership.json.field "Membership")) fun _ _ => rfl) fun s _ => by cases s <;> rfl).iso
    (fun payload => match payload with
      | .blank => .inl ()
      | .normal command => .inr (.inl command)
      | .membership member => .inr (.inr member))
    (fun s => match s with
      | .inl () => some .blank
      | .inr (.inl command) => some (.normal command)
      | .inr (.inr member) => some (.membership member))
    (by rintro (_ | _ | _) <;> rfl)

def Entry.json : Json Entry :=
  (Json.object (LogId.json.field "log_id" |>.and <| EntryPayload.json.field "payload")).iso
    (fun e => (e.logId, e.payload))
    (fun (logId, payload) => some ⟨logId, payload⟩)
    (fun _ => rfl)

def LeaderId.json : Json LeaderId :=
  (Json.object (Json.nat.field "term" |>.and <| Json.nat.field "node_id")).iso
    (fun l => (l.term, l.nodeId))
    (fun (term, nodeId) => some ⟨term, nodeId⟩)
    (fun _ => rfl)

def Vote.json : Json Vote :=
  (Json.object (LeaderId.json.field "leader_id" |>.and <| Json.bool.field "committed")).iso
    (fun v => (v.leaderId, v.committed))
    (fun (leaderId, committed) => some ⟨leaderId, committed⟩)
    (fun _ => rfl)

/-! ## No value is a `null` -/

/-- What does not begin with white space keeps its first byte. -/
theorem trimAscii_cons {b : UInt8} (hb : b ≠ 0x20 ∧ b ≠ 0x09 ∧ b ≠ 0x0a ∧ b ≠ 0x0c ∧ b ≠ 0x0d) (l : Bytes) :
    ∃ l', trimAscii (b :: l) = b :: l' := by
  unfold trimAscii
  dsimp only
  rw [List.dropWhile_cons_of_neg (by simp [hb]), List.reverse_cons, List.dropWhile_append]
  split_ifs
  · rw [List.dropWhile_cons_of_neg (by simp [hb])]
    exact ⟨[], rfl⟩
  · exact ⟨_, List.reverse_append⟩

theorem isJsonNull_cons {b : UInt8} (hb : b ≠ 0x20 ∧ b ≠ 0x09 ∧ b ≠ 0x0a ∧ b ≠ 0x0c ∧ b ≠ 0x0d) (hn : b ≠ 0x6e)
    (l : Bytes) : isJsonNull (b :: l) = false := by
  obtain ⟨l', hl'⟩ := trimAscii_cons hb l
  have hnull : utf8 "null" = [0x6e, 0x75, 0x6c, 0x6c] := by decide
  unfold isJsonNull
  rw [hl', hnull]
  simp [hn]

/-- A form that begins with a bracket, stored as metadata. -/
def metaJson {α : Type} (F : Json α) (hF : ∀ a, ∃ l, F.print a = '[' :: l ∨ F.print a = '\x7b' :: l) :
    MetaSerde α where
  toSerde := F.serde
  encode_notNull a := by
    change isJsonNull (utf8 (String.ofList (F.print a))) = false
    obtain ⟨l, h | h⟩ := hF a
    · rw [h, utf8_ofList_cons, show utf8 (String.ofList ['[']) = [0x5b] by decide]
      exact isJsonNull_cons (by decide) (by decide) _
    · rw [h, utf8_ofList_cons, show utf8 (String.ofList ['\x7b']) = [0x7b] by decide]
      exact isJsonNull_cons (by decide) (by decide) _

/-- The raft metadata as `serde_json` writes it, decoded from that text only; a leader id prints as its term and node. -/
def jsonRaftCodec : RaftCodec where
  logId := metaJson LogId.json fun _ => ⟨_, Or.inr rfl⟩
  membership := metaJson StoredMembership.json fun _ => ⟨_, Or.inr rfl⟩
  snapshotData := SnapshotData.json.serde
  snapshotBytes := metaJson Json.bytes fun _ => ⟨_, Or.inl rfl⟩
  showLeader leader := "T" ++ toString leader.term ++ "-N" ++ toString leader.nodeId

def jsonLogCodec : LogCodec where
  toRaftCodec := jsonRaftCodec
  entry := Entry.json.serde
  vote := metaJson Vote.json fun _ => ⟨_, Or.inr rfl⟩

/-! ## A small log for concrete runs -/

def freshDb : Db := ⟨.empty, .empty, .empty⟩

/-- The entry at `index` of the first term. -/
def entryAt (index : Nat) (payload : EntryPayload) : Entry := ⟨⟨⟨1, 1⟩, index⟩, payload⟩

def roleNamed (name : String) : RoleRecord where
  name := name
  description := none
  isAdmin := false
  permissions := []
  createdAt := 0

/-- The entry at `index` that creates a role. -/
def roleEntry (index : Nat) (name : String) : Entry := entryAt index (.normal (.createRole (roleNamed name)))

/-- The empty store after these roles have been created. -/
def tablesWithRoles (names : List String) : Tables :=
  names.foldl (fun t name => (createRole jsonCodec (roleNamed name) t).2) .empty

end HyperionVault
