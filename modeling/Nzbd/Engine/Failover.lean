import Mathlib.Data.Finset.Basic
import Nzbd.Types

/-!
# The failover ladder of one article

Servers stand on tiers.  A segment starts on the lowest one and climbs when no
server of its tier can serve it any more: each of them has failed the article,
shares a group with one that has, or does not keep articles that long.
`currentCandidates` is the climb, `onOutcome` books one attempt.
-/

namespace Nzbd.Engine

inductive AttemptOutcome
  | success
  /-- Connecting failed, or the connection died while reading. -/
  | connectionFailed
  /-- The server does not have the article. -/
  | articleMissing
  | crcError
  /-- The article is older than the server's retention window. -/
  | retentionExceeded
  /-- Incomplete body, malformed yEnc, protocol-level trouble. -/
  | other
  deriving DecidableEq

/-- What failover reads of a server. -/
structure ServerDef where
  id : ServerId
  active : Bool
  tier : Nat
  /-- Servers of one tier and one group above 0 stand in for each other. -/
  group : Nat
  /-- A fill server that is blocked never stalls progress. -/
  fill : Bool
  /-- 0 is unlimited. -/
  retentionDays : Nat

inductive Verdict
  | done
  | retrySame (blockServer : Bool)
  | nextServer
  | failed
  deriving DecidableEq

inductive Candidates
  | servers (ids : List ServerId)
  | waitForBlocked
  | exhausted
  deriving DecidableEq

structure SegmentAttempt where
  tier : Nat
  failed : Finset ServerId
  retriesLeft : Nat
  initialRetries : Nat

def SegmentAttempt.new (retries : Nat) : SegmentAttempt := ⟨0, ∅, retries, retries⟩

namespace Ladder

variable (servers : List ServerDef)

def maxTier : Nat := ((servers.filter (·.active)).map (·.tier)).foldl max 0

def isGroupFailed (att : SegmentAttempt) (s : ServerDef) : Bool :=
  s.id ∈ att.failed ||
    (s.group != 0 && servers.any fun other =>
      other.tier == s.tier && other.group == s.group && decide (other.id ∈ att.failed))

def retentionExceeded (s : ServerDef) (articleAgeDays : Option Nat) : Bool :=
  match articleAgeDays with
  | some age => decide (0 < s.retentionDays) && decide (s.retentionDays < age)
  | none => false

/-- The servers of the segment's tier that may still have the article. -/
def candidates (att : SegmentAttempt) (articleAgeDays : Option Nat) : List ServerDef :=
  servers.filter fun s =>
    s.active && s.tier == att.tier && !isGroupFailed servers att s &&
      !retentionExceeded s articleAgeDays

/-- The loop of `currentCandidates`, with the number of tiers above as fuel. -/
def climb (isBlocked : ServerId → Bool) (articleAgeDays : Option Nat) :
    Nat → SegmentAttempt → Candidates × SegmentAttempt
  | fuel, att =>
    let cands := candidates servers att articleAgeDays
    let usable := (cands.filter fun s => !isBlocked s.id).map (·.id)
    let escalate : Candidates × SegmentAttempt :=
      match fuel with
      | 0 => (.exhausted, att)
      | fuel + 1 => climb isBlocked articleAgeDays fuel { att with tier := att.tier + 1 }
    if cands = [] then escalate
    else if usable ≠ [] then (.servers usable, att)
    else if cands.all (·.fill) then escalate
    else (.waitForBlocked, att)

/-- The servers that may serve the segment now, and the segment's tier
afterwards. -/
def currentCandidates (att : SegmentAttempt) (isBlocked : ServerId → Bool)
    (articleAgeDays : Option Nat) : Candidates × SegmentAttempt :=
  climb servers isBlocked articleAgeDays (maxTier servers - att.tier) att

inductive Selection
  | server (id : ServerId)
  | waitForBlocked
  | exhausted

/-- Pick one server, whatever the age of the article. -/
def select (att : SegmentAttempt) (isBlocked : ServerId → Bool) : Selection × SegmentAttempt :=
  let r := currentCandidates servers att isBlocked none
  match r.1 with
  | .servers (id :: _) => (.server id, r.2)
  | .servers [] => (.exhausted, r.2)
  | .waitForBlocked => (.waitForBlocked, r.2)
  | .exhausted => (.exhausted, r.2)

/-- No server can ever serve the segment; blocks expire and are left out. -/
def isExhausted (att : SegmentAttempt) (articleAgeDays : Option Nat) : Bool × SegmentAttempt :=
  let r := currentCandidates servers att (fun _ => false) articleAgeDays
  (r.1 == .exhausted, r.2)

def onOutcome (att : SegmentAttempt) (server : ServerId) :
    AttemptOutcome → Verdict × SegmentAttempt
  | .success => (.done, att)
  | .connectionFailed => (.retrySame true, att)
  | .articleMissing | .crcError | .retentionExceeded =>
    (.nextServer, { att with failed := insert server att.failed })
  | .other =>
    if 1 < att.retriesLeft then
      (.retrySame false, { att with retriesLeft := att.retriesLeft - 1 })
    else
      -- a fresh server gets a fresh budget of retries
      (.nextServer, { att with
        failed := insert server att.failed
        retriesLeft := att.initialRetries })

end Ladder

end Nzbd.Engine
