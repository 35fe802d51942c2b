import Nzbd.Engine.Owner

/-!
# The post manager

What the modules on post-processing share: the stages a restart may begin from, the
outcomes, the stamp of a job that is done, and what a history append may answer.

A stage belongs to the restart point of the coupled stages it is one of.  A restart
runs everything from its point on (`RestartPoint.includes`), and it may go back from
where a job stands but not beyond (`restartLimit`).
-/

namespace Nzbd.Post

open Engine.Owner (ppDoneParam)

inductive RestartPoint
  | beginning
  | verify
  | unpack
  | cleanup
  | move
  | scripts
  deriving DecidableEq

namespace RestartPoint

def order : RestartPoint → Nat
  | beginning => 0
  | verify => 1
  | unpack => 2
  | cleanup => 3
  | move => 4
  | scripts => 5

/-- A run from `p` goes through `q`. -/
def includes (p q : RestartPoint) : Bool := p.order ≤ q.order

theorem includes_trans {p q r : RestartPoint} (hpq : p.includes q = true)
    (hqr : q.includes r = true) : p.includes r = true := by
  simp only [includes, decide_eq_true_eq] at *
  omega

end RestartPoint

def restartLimit : JobStatus → Option RestartPoint
  | .completed => some .beginning
  | .postQueued => some .beginning
  | .post .parRename => some .beginning
  | .post .rarRename => some .beginning
  | .post .parVerify => some .verify
  | .post .parRepair => some .verify
  | .post .unpack => some .unpack
  | .post .cleanup => some .cleanup
  | .post .postUnpackRename => some .cleanup
  | .post .move => some .move
  | .post .script => some .scripts
  | _ => none

/-- Downloaded, and with post-processing ahead or under way. -/
def needsPp : JobStatus → Bool
  | .completed => true
  | .postQueued => true
  | .post _ => true
  | _ => false

inductive PpFinal
  | success
  | parFailure
  | unpackFailure
  | scriptFailure
  deriving DecidableEq

def PpFinal.asStr : PpFinal → Text
  | .success => Nzbd.text "SUCCESS"
  | .parFailure => Nzbd.text "PAR_FAILURE"
  | .unpackFailure => Nzbd.text "UNPACK_FAILURE"
  | .scriptFailure => Nzbd.text "SCRIPT_FAILURE"

def ppDone (j : Job) : Bool := j.params.any (·.1 = ppDoneParam)

/-- What the history answers to an entry. -/
inductive RecordResult
  | ok
  /-- An error; the entry may be there all the same. -/
  | error (landed : Bool)
  deriving DecidableEq

def RecordResult.stored : RecordResult → Bool
  | ok => true
  | error landed => landed

end Nzbd.Post
