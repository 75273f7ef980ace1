/-
  Subject:   What happened in a run, newest first.

  No program reads the history. Battery's contract speaks about it (a new lease id, a MicroVM that
  is never leased twice), and so do the results.
-/
import BatteryOperator.Api
import BatteryOperator.Battery

namespace BatteryOperator

/-- Why a claim was expired: which step of the chain did it, and on what ground. -/
inductive Why where
  /-- `ExpireDeleted`: an event reported the MicroVM deleted. -/
  | deletedVM (uid : String)
  /-- `Recover`: the last recovery's ListLeases left the Lease out. -/
  | recovered (leaseID : String)
  /-- `Renew`: Heartbeat was answered NOT_FOUND. -/
  | heartbeatNotFound (leaseID : String)
  /-- `CheckExpiry`: ListLeases left the Lease out. -/
  | notListed (leaseID : String)
  /-- `CheckExpiry`: ListLeases has the Lease with an expiry that passed. -/
  | overdue (leaseID : String) (expiresAt : Time)
  deriving DecidableEq

/-- The text `expire` is given. -/
def Why.text : Why → String
  | .deletedVM uid => "battery deleted MicroVM " ++ uid
  | .recovered id =>
    "battery no longer held Lease " ++ id ++ " when the Claim Controller recovered"
  | .heartbeatNotFound id => "battery no longer holds Lease " ++ id
  | .notListed id => "battery no longer holds Lease " ++ id
  | .overdue id at_ => "Lease " ++ id ++ " expired at " ++ rfc3339 at_

/-- What ended a Lease. -/
inductive Cause where
  /-- A sweep found it expired. -/
  | swept
  /-- A ReleaseVM, confirmed at once or later. -/
  | released
  /-- Someone else: another client's release, or a Pool deleted by force. -/
  | dropped
  deriving DecidableEq

/-- One thing that happened. -/
inductive Fact where
  /-- The API server created the claim `key` with this uid. -/
  | created (key : ObjectKey) (uid : String)
  /-- The Holder wrote `spec.renewTime`. -/
  | wrote (uid : String) (renewTime : MicroTime)
  /-- The controller sent a call to battery for the claim. -/
  | sent (uid : String) (call : Call)
  /-- Battery created a Lease for a ClaimVM with this request id. -/
  | leased (leaseID vmUID requestID : String) (pool : PoolRef) (expiresAt : Time)
  /-- Battery answered a ClaimVM with a Lease it held already. -/
  | replayed (requestID leaseID : String)
  /-- Battery answered a ClaimVM with success. -/
  | replied (requestID : String) (claim : Claim)
  /-- A Heartbeat moved a Lease's expiry. -/
  | renewed (leaseID : String) (expiresAt : Time)
  /-- A Lease ended. -/
  | ended (leaseID : String) (at_ : Time) (cause : Cause)
  /-- The controller set the claim Expired. -/
  | expired (uid leaseID : String) (why : Why)
  deriving DecidableEq

/-- Battery set the Lease's expiry to `e`. -/
def Published (h : List Fact) (leaseID : String) (e : Time) : Prop :=
  (∃ vmUID requestID pool, Fact.leased leaseID vmUID requestID pool e ∈ h) ∨
    Fact.renewed leaseID e ∈ h

/-- The Lease has ended. -/
def Gone (h : List Fact) (leaseID : String) : Prop := ∃ at_ cause, Fact.ended leaseID at_ cause ∈ h

theorem Published.mono {h h' : List Fact} {id : String} {e : Time} (hp : Published h id e)
    (hle : h <:+ h') : Published h' id e := by
  rcases hp with ⟨vm, rid, pool, hm⟩ | hm
  · exact .inl ⟨vm, rid, pool, hle.mem hm⟩
  · exact .inr (hle.mem hm)

theorem Gone.mono {h h' : List Fact} {id : String} (hg : Gone h id) (hle : h <:+ h') :
    Gone h' id := by
  obtain ⟨at_, cause, hm⟩ := hg
  exact ⟨at_, cause, hle.mem hm⟩

end BatteryOperator
