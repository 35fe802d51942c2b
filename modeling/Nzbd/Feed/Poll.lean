import Nzbd.Engine.Naming
import Nzbd.Lib.Log
import Nzbd.Lib.Table
import Nzbd.Lib.Trace

/-!
# Polling the feeds

Every feed has a poller of its own, and all of them share the ledger of seen items, one file
with the entries of every feed by its name.  A poll reads the whole file, drops the entries of
its feed that are too old, goes through the items, and writes the whole file back.  A file that
cannot be read is an empty ledger to it.  A new item that the filter accepts is handed to the
queue; new items are entered in any case.

Between two statements of a poll the other polls go on.  The statements are `begin` (the feed
has been fetched and the ledger read), `handle` (the next item), `save`, and `stop` (the
daemon ends in the middle).  `log` is what happened, the last event first, and `version` counts
how often the ledger has changed; the source knows neither of them.
-/

namespace Nzbd.Feed

open Runs (Run)

/-! ### Feeds and items -/

structure FeedDef where
  id : Nat
  name : Text
  url : Text
  category : Option Text
  priority : Int
  pause : Bool

/-- What an accepting rule says of an item. -/
structure MatchOptions where
  category : Option Text
  priority : Option Int
  pause : Option Bool
  dupekey : Option Text
  dupescore : Option Int
  deriving DecidableEq

/-- An item, and the verdict of the filter. -/
structure FeedItem where
  title : Text
  url : Text
  guid : Text
  verdict : Option MatchOptions

structure AddOpts where
  category : Option Text
  priority : Int
  paused : Bool
  dupe : Option DupeInfo
  client : Option Text

def addOpts (feed : FeedDef) (opts : MatchOptions) : AddOpts where
  category := opts.category <|> feed.category
  priority := opts.priority.getD feed.priority
  paused := opts.pause.getD feed.pause
  dupe := opts.dupekey.map fun k => ⟨k, opts.dupescore.getD 0, some .score⟩
  client := some (text "feed:" ++ feed.name)

/-! ### The ledger -/

/-- The items of a feed and when they were first seen. -/
abbrev Seen := List (Text × Int)

abbrev SeenDoc := List (Text × Seen)

def seenRetentionSecs : Int := 90 * 86400

/-- The entries of a feed, none if there are none yet. -/
def entry (doc : SeenDoc) (name : Text) : Seen := ((Table.get Prod.fst doc name).map (·.2)).getD []

def putEntry (doc : SeenDoc) (name : Text) (seen : Seen) : SeenDoc :=
  Table.put Prod.fst doc (name, seen)

def retain (now : Int) (seen : Seen) : Seen := seen.filter fun e => now - e.2 < seenRetentionSecs

def containsKey (seen : Seen) (guid : Text) : Bool := seen.any (·.1 = guid)

/-! ### Polls -/

structure Poll where
  now : Int
  /-- The ledger as it was read. -/
  loaded : SeenDoc
  doc : SeenDoc
  /-- Still to be handled. -/
  items : List FeedItem
  /-- Entered by this poll. -/
  marked : List Text
  /-- Handed to the queue by this poll. -/
  added : List Text
  /-- Of the ledger, when it was read. -/
  version : Nat

section Pollers

variable {ι : Type*}

inductive Event (ι : Type*)
  | polled (feed : ι) (guids : List Text)
  | added (feed : ι) (guid : Text)
  | failed (feed : ι) (guid : Text)
  /-- Accepted but seen before; `again` if by an item of the same poll. -/
  | passed (feed : ι) (guid : Text) (again : Bool)
  | saved (feed : ι) (now : Int) (before after : SeenDoc)
  deriving DecidableEq

structure Pollers (ι : Type*) where
  /-- The ledger on disk, if it can be read. -/
  file : Option SeenDoc
  running : ι → Option Poll
  queue : List (Text × Text × AddOpts)
  log : List (Event ι)
  version : Nat

inductive Input (ι : Type*)
  /-- `read` is whether the file can be read and is whole. -/
  | begin (feed : ι) (now : Int) (items : List FeedItem) (read : Bool)
  /-- `ok` is what the queue says, if it is asked. -/
  | handle (feed : ι) (ok : Bool)
  | save (feed : ι) (landed : Bool)
  | stop (feed : ι)

namespace Pollers

def ledger (s : Pollers ι) : SeenDoc := s.file.getD []

def setPoll [DecidableEq ι] (s : Pollers ι) (f : ι) (p : Option Poll) : Pollers ι :=
  { s with running := Function.update s.running f p }

def note (s : Pollers ι) (e : Event ι) : Pollers ι := { s with log := e :: s.log }

variable (feeds : ι → FeedDef)

def loadSeen (s : Pollers ι) (read : Bool) : SeenDoc := if read then s.ledger else []

def newPoll (s : Pollers ι) (f : ι) (now : Int) (items : List FeedItem) (doc : SeenDoc) : Poll where
  now := now
  loaded := doc
  doc := putEntry doc (feeds f).name (retain now (entry doc (feeds f).name))
  items := items
  marked := []
  added := []
  version := s.version

/-- Enter an item that is new. -/
def markItem (name guid : Text) (p : Poll) : Poll :=
  { p with
    doc := putEntry p.doc name (entry p.doc name ++ [(guid, p.now)])
    marked := guid :: p.marked }

variable [DecidableEq ι]

def handleItem (s : Pollers ι) (f : ι) (p : Poll) (item : FeedItem) (ok : Bool) : Pollers ι :=
  let feed := feeds f
  if containsKey (entry p.doc feed.name) item.guid then
    let s := s.setPoll f (some p)
    if item.verdict.isSome then s.note (.passed f item.guid (item.guid ∈ p.marked)) else s
  else
    match item.verdict with
    | none => s.setPoll f (some (markItem feed.name item.guid p))
    | some opts =>
      if ok then
        let p := markItem feed.name item.guid { p with added := item.guid :: p.added }
        { s.setPoll f (some p) with
          queue := s.queue ++
            [(item.title, item.url, addOpts feed opts)] }.note (.added f item.guid)
      else (s.setPoll f (some (markItem feed.name item.guid p))).note (.failed f item.guid)

/-- The file is replaced or left as it is. -/
def saveSeen (s : Pollers ι) (f : ι) (p : Poll) (landed : Bool) : Pollers ι :=
  let s := s.setPoll f none
  if landed then
    { s with
      file := some p.doc
      version := if p.doc = s.ledger then s.version else s.version + 1 }.note
        (.saved f p.now s.ledger p.doc)
  else s

def step (s : Pollers ι) : Input ι → Option (Pollers ι)
  | .begin f now items read =>
    match s.running f with
    | some _ => none
    | none => some ((s.setPoll f (some (s.newPoll feeds f now items (s.loadSeen read)))).note
        (.polled f (items.map (·.guid))))
  | .handle f ok =>
    match s.running f with
    | none => none
    | some p =>
      match p.items with
      | [] => none
      | item :: items => some (s.handleItem feeds f { p with items := items } item ok)
  | .save f landed =>
    match s.running f with
    | none => none
    | some p => if p.items = [] then some (s.saveSeen f p landed) else none
  | .stop f =>
    match s.running f with
    | none => none
    | some _ => some (s.setPoll f none)

/-- Any ledger, and no poll on its way. -/
def Start (s : Pollers ι) : Prop := (∀ f, s.running f = none) ∧ s.log = []

def Next (s : Pollers ι) (i : Input ι) (t : Pollers ι) : Prop := s.step feeds i = some t

end Pollers

end Pollers

end Nzbd.Feed
