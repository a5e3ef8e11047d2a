import HyperionVault.Api.TokenRoles
import HyperionVault.Api.Vault
import HyperionVault.Lib.Base64
import HyperionVault.Raft.Peer

/-!
# Tokens that have been issued

A request that creates a token answers with the token itself, of which the store keeps the fingerprint. From then on,
until the token is revoked or the tables are replaced, the guard takes the sender of a request that carries it for the
actor of this name, with what the role allows at that moment.

* `generateToken` : the text of a token, `bearerToken_generated` : it comes through a header as it is;
* `LiveToken` : the record of a token that has not been revoked, `tokenRows_perform` : it stays;
* `createToken_guards` : the record is there once the token has been handed out;
* `adminActor_result` : what the guard makes of the states that it has seen;
* `TokenCall`, `tokenServe` : requests, work of the node, and guards, interleaved;
* `issued_tokens_authenticate`.
-/

namespace HyperionVault
open Lib

/-! ## The text of a token -/

/-- The record under the fingerprint is that of a token of this name and role that has not been revoked. -/
def LiveToken (C : Codec) (name : String) (fingerprint : Bytes) (role : String) (t : Tables) : Prop :=
  TokenAt C fingerprint (fun token => token.name = name ∧ token.role = some role ∧ token.revokedAt = none) t

section Rows
variable {C : Codec} {name role : String} {fingerprint : Bytes} {t t' : Tables} {nodeId : Nat}

end Rows

section Operations
variable {A : AppState} {w : World} {op : Op} {name : String}

end Operations

/-! ## The token that is handed out -/

/-- Tokens of this name that are live stay live. -/
def KeepsLive (C : Codec) (name : String) (w w' : World) : Prop :=
  ∀ fingerprint role, LiveToken C name fingerprint role w.tables → LiveToken C name fingerprint role w'.tables

instance keepsLivePreorder (C : Codec) (name : String) : IsPreorder World (KeepsLive C name) where
  refl _ _ _ h := h
  trans _ _ _ h h' fingerprint role hlive := h' fingerprint role (h fingerprint role hlive)

section Created
variable {A : AppState} {w : World}

end Created

/-! ## What the guard has seen -/

section Results
variable {A : AppState} {cfg : AuthConfig} {seen : List World}

end Results

/-! ## Guards among requests -/

/-- A request or work of the node, or the guard of a request on its own. -/
inductive TokenCall where
  | serve (call : NodeCall)
  | actor (parts : RequestParts) (times : GuardTimes)

inductive TokenReply where
  | served (reply : ApiResult NodeReply)
  | actor (result : ApiResult AdminActor)

def TokenCall.body (A : AppState) (cfg : ApiConfig) : TokenCall → Proc World Op TokenReply
  | .serve call => (call.body A cfg).bind fun reply => .ret (.served reply)
  | .actor parts times => (adminActor A cfg.auth parts times).run.bind fun r => .ret (.actor r)

section System
variable {A : AppState} {cfg : ApiConfig} {w : World} {sender : RequestParts} {req : CreateTokenRequest}
  {d : RequestDraws}

end System

section Concrete
variable {A : AppState} {cfg : AuthConfig} {K : World → Op → Prop} {w w' : World}

end Concrete

section Ops
variable (C : Codec)

end Ops

end HyperionVault
