import Nzbd.Api.EventHub
import Nzbd.Lib.Log
import Nzbd.Lib.Trace

/-!
# Event streams

A client opens a stream, which subscribes to the hub, reads `next`, resolves the
`Last-Event-ID` against the ring and then forwards what its receiver gets; the frames it has
replayed already are dropped by their number.  What the stream writes the client reads in
that order, up to where the connection ends, and a client that has received an id opens its
next stream with it.  (The stream writes `tick`, `hb` and `log` too, which have no id.)

`NoSilentGap` is what a client may rely on.  `gapless_of_run` has it for every run in which a
client that goes on after `n` does not resolve it while `n` is the newest frame in the ring
and had not been broadcast when the stream subscribed: the stream is then told that there is
nothing to replay, remembers nothing as sent, and forwards `n` again.
-/

namespace Nzbd.Api

open Broadcast (window Numbered Received)
open Log (Always)
open Runs (Run)

/-- What is written to a stream. -/
inductive SseEvent
  | reset
  | event (id : EventId) (name data : Text)
  | lagged (skipped : Nat)
  deriving DecidableEq

def SeqFrame.sse (boot : Nat) (f : SeqFrame) : SseEvent := .event ⟨boot, f.seq⟩ f.name f.data

inductive Stage
  | subscribed
  /-- `next` has been read, and the ring has not. -/
  | loaded (highest : Nat)
  | live (sentSeq : Nat)

structure Stream where
  lastEventId : Option EventId
  /-- How many of the frames broadcast the receiver has passed. -/
  pos : Nat
  stage : Stage
  /-- Written and not read yet. -/
  pipe : List SseEvent

inductive Entry
  | opened (lastEventId : Option EventId)
  | got (e : SseEvent)
  deriving DecidableEq

structure Client where
  log : List Entry
  stream : Option Stream

/-- The last id that has been received. -/
def lastId : List Entry → Option EventId
  | [] => none
  | .got (.event id _ _) :: _ => some id
  | _ :: log => lastId log

namespace Stream

def replayFrame (boot : Nat) (st : Stream × Nat) (f : SeqFrame) : Stream × Nat :=
  ({ st.1 with pipe := st.1.pipe ++ [f.sse boot] }, max st.2 f.seq)

/-- What the stream writes first. -/
def resume (boot : Nat) (st : Stream) : Replay → Stream
  | .live => { st with stage := .live 0 }
  | .reset => { st with stage := .live 0, pipe := st.pipe ++ [.reset] }
  | .frames frames =>
    let (st, sentSeq) := frames.foldl (replayFrame boot) (st, 0)
    { st with stage := .live sentSeq }

/-- What comes of the next thing the receiver gets. -/
def forward (boot : Nat) (st : Stream) (sentSeq : Nat) : Received SeqFrame × Nat → Stream
  | (.value f, pos) =>
    if f.seq ≤ sentSeq then { st with pos := pos }
    else { st with pos := pos, stage := .live f.seq, pipe := st.pipe ++ [f.sse boot] }
  | (.lagged skipped, pos) => { st with pos := pos, pipe := st.pipe ++ [.lagged skipped] }

end Stream

variable {ι : Type*}

structure Service (ι : Type*) where
  hub : EventHub
  client : ι → Client

inductive Input (ι : Type*)
  | number (name : Text) (body : Nat → Text)
  | push
  | broadcast
  /-- Subscribe, with this `Last-Event-ID` header. -/
  | connect (c : ι) (header : Option Text)
  | load (c : ι)
  | replay (c : ι)
  | deliver (c : ι)
  | read (c : ι)
  | disconnect (c : ι)

namespace Client

def connect (hub : EventHub) (c : Client) (header : Option Text) : Option Client :=
  match c.stream with
  | some _ => none
  | none =>
    if ∀ id ∈ lastId c.log, header = some id.display then
      let lastEventId := header.bind EventId.parse
      some ⟨.opened lastEventId :: c.log, some ⟨lastEventId, hub.tx.length, .subscribed, []⟩⟩
    else none

def load (hub : EventHub) (c : Client) : Option Client := do
  let st ← c.stream
  match st.stage with
  | .subscribed => some { c with stream := some { st with stage := .loaded (hub.next - 1) } }
  | _ => none

def replay (hub : EventHub) (c : Client) : Option Client := do
  let st ← c.stream
  match st.stage with
  | .loaded highest =>
    let answer := Api.replay hub.boot highest hub.ring st.lastEventId
    some { c with stream := some (st.resume hub.boot answer) }
  | _ => none

def deliver (hub : EventHub) (c : Client) : Option Client := do
  let st ← c.stream
  match st.stage with
  | .live sentSeq =>
    let received ← Broadcast.recv ringSize hub.tx st.pos
    some { c with stream := some (st.forward hub.boot sentSeq received) }
  | _ => none

def read (c : Client) : Option Client := do
  let st ← c.stream
  match st.pipe with
  | e :: pipe => some ⟨.got e :: c.log, some { st with pipe := pipe }⟩
  | [] => none

def disconnect (c : Client) : Option Client := c.stream.map fun _ => { c with stream := none }

end Client

namespace Service

variable [DecidableEq ι]

def setClient (s : Service ι) (c : ι) (k : Client) : Service ι :=
  { s with client := Function.update s.client c k }

def step (s : Service ι) : Input ι → Option (Service ι)
  | .number name body => (s.hub.number name body).map fun hub => { s with hub := hub }
  | .push => s.hub.push.map fun hub => { s with hub := hub }
  | .broadcast => s.hub.broadcast.map fun hub => { s with hub := hub }
  | .connect c header => ((s.client c).connect s.hub header).map (s.setClient c)
  | .load c => ((s.client c).load s.hub).map (s.setClient c)
  | .replay c => ((s.client c).replay s.hub).map (s.setClient c)
  | .deliver c => ((s.client c).deliver s.hub).map (s.setClient c)
  | .read c => (s.client c).read.map (s.setClient c)
  | .disconnect c => (s.client c).disconnect.map (s.setClient c)

def Next (s : Service ι) (i : Input ι) (t : Service ι) : Prop := s.step i = some t

def Start (s : Service ι) : Prop :=
  ∃ boot < 2 ^ 64, s.hub = .new boot ∧ ∀ c, s.client c = ⟨[], none⟩

end Service

/-! ### What a client may rely on -/

def Got (log : List Entry) (id : EventId) : Prop := ∃ name data, .got (.event id name data) ∈ log

/-- What tells a client of a gap. -/
def Entry.Signal : Entry → Prop
  | .got .reset => True
  | .got (.lagged _) => True
  | _ => False

def OneStream (mid : List Entry) : Prop := ∀ lastEventId, .opened lastEventId ∉ mid

/-- The first thing received is the reset. -/
def ResetFirst (mid : List Entry) : Prop := mid.getLast? = some (.got .reset)

/-- Logs have the last thing first: `mid` is what lies between. -/
structure NoSilentGap (boot : Nat) (log : List Entry) : Prop where
  sameBoot : ∀ id, Got log id → id.boot = boot
  increasing : ∀ later mid earlier m name data n name' data',
    log = later ++ .got (.event m name data) :: (mid ++ .got (.event n name' data') :: earlier) →
      n.seq < m.seq
  signalled : ∀ later mid earlier m name data n name' data',
    log = later ++ .got (.event m name data) :: (mid ++ .got (.event n name' data') :: earlier) →
      (∀ k, n.seq < k → k < m.seq → Got mid ⟨boot, k⟩) ∨ ∃ e ∈ mid, e.Signal
  resumed : ∀ later mid earlier m name data lastEventId n,
    log = later ++ .got (.event m name data) :: (mid ++ .opened lastEventId :: earlier) →
      OneStream mid → lastId earlier = some n →
      lastEventId = some n ∧ n.seq < m.seq ∧
        ((∀ k, n.seq < k → k < m.seq → Got mid ⟨boot, k⟩) ∨ ResetFirst mid ∨
          ∃ skipped, .got (.lagged skipped) ∈ mid)
  foreign : ∀ later e mid earlier id,
    log = later ++ .got e :: (mid ++ .opened (some id) :: earlier) → OneStream mid →
      id.boot ≠ boot → ResetFirst (.got e :: mid)

/-- A client that goes on after `n` and has read all there is has every frame after `n`. -/
def CaughtUp (hub : EventHub) (c : Client) : Prop :=
  ∀ st sentSeq mid lastEventId earlier n, c.stream = some st → st.stage = .live sentSeq →
    st.pipe = [] → st.pos = hub.tx.length →
    c.log = mid ++ .opened lastEventId :: earlier → OneStream mid → lastId earlier = some n →
      (∀ k, n.seq < k → k ≤ hub.tx.length → Got mid ⟨hub.boot, k⟩) ∨ ResetFirst mid ∨
        ∃ skipped, .got (.lagged skipped) ∈ mid

namespace Service

/-- The process does not run out of numbers, and no client resolves `n` while `n` is the newest
frame in the ring and had not been broadcast when its stream subscribed. -/
def Careful (s : Service ι) : Input ι → Prop
  | .number _ _ => s.hub.next + 1 < 2 ^ 64
  | .replay c => ∀ st ∈ (s.client c).stream, ∀ n ∈ lastId (s.client c).log,
      n.seq ≤ st.pos ∨ ∃ f ∈ s.hub.ring, n.seq < f.seq
  | _ => True

end Service

end Nzbd.Api
