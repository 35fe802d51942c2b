import Nzbd.History.Replay
import Nzbd.History.Perform

/-!
# Hidden jobs

A node hides a job, and reads what other nodes write.  Of the lines of a key the last
one says whether it is hidden, in the order of the file names; so a line of a file with
a later name takes the word of the node back, whenever it was written.  **So does the
node's own old line of another completion of the job**: a hide writes one line only.

`hide_stays`: if at every pass the last line of each key says what the node has said,
the job stays as it is.
-/

namespace Nzbd.History

open Runs
open Index

/-- A node among others. -/
structure Desk where
  dir : LogDir
  seen : List (Text × Nat)
  now : Int
  retention : Retention
  sync : HistorySync
  /-- Whether a job is hidden, by the last operation on it that has returned `true`. -/
  word : JobId → Option Bool

inductive DeskEvent
  /-- An operation, up to a write. -/
  | perform (op : LocalOp) (n ino modified : Nat)
  | change (ch : LogChange)
  | wait (seconds : Nat)
  | refresh (quiet elapsed : Bool)
  /-- A pass that stops between two transactions. -/
  | interrupt (quiet elapsed : Bool) (n : Nat)
  | restart (r : Retention)

namespace Desk

variable (c : LogFormat) (own : Text) (s : Desk)

/-- What is known of the jobs after an operation. -/
def heard (op : LocalOp) (finished : Bool) : JobId → Option Bool :=
  match op with
  | .setHidden job hidden _ _ => Function.update s.word job
      (if finished && op.answer s.sync.db then some hidden else none)
  | _ => s.word

def floor : Int := ingestFloor s.sync.db s.retention s.now

/-- A pass has to read all files, not only what is new. -/
def full (quiet elapsed : Bool) : Bool :=
  !quiet || !s.sync.initialized || s.sync.dirty || elapsed

def after : DeskEvent → Desk
  | .perform op n ino modified =>
    let changes := op.changes c s.retention s.dir own s.sync.db n ino modified
    let finished := decide (op.Finished c s.retention s.dir own s.sync.db n)
    { s with
      dir := changes.foldl LogChange.apply s.dir
      seen := changes.foldl LogChange.seen s.seen
      sync := { s.sync with
        db := op.tablesAt c s.retention s.dir own s.sync.db n
        dirty := s.sync.dirty || op.guarded && !finished }
      word := s.heard op finished }
  | .change ch => { s with dir := ch.apply s.dir, seen := ch.seen s.seen }
  | .wait seconds => { s with now := s.now + seconds }
  | .refresh quiet elapsed =>
    { s with sync := replayLogs c.toLogCodec s.sync s.retention s.dir quiet elapsed s.now }
  | .interrupt quiet elapsed n =>
    if !s.full quiet elapsed && s.sync.fingerprints = (logPaths s.dir).map fingerprint then s
    else { s with sync := { s.sync with
      db := committed c s.sync (s.full quiet elapsed) s.floor (logPaths s.dir) n } }
  | .restart r => { s with retention := r, sync := .opened s.sync.db }

end Desk

/-- A new file has a new identity. -/
def DeskEvent.Enabled (own : Text) (s : Desk) : DeskEvent → Prop
  | .perform _ _ ino _ => (own, ino) ∉ s.seen
  | .change ch => ch.Enabled s.seen
  | _ => True

def lastSaid (c : LogCodec) (floor : Int) (files : List (Text × LogFile)) (k : Key) :
    Option HistoryEntry :=
  (merging.under k ((allEntries c floor files).map Prod.snd)).getLast?

def Desk.Honours (s : Desk) (e : HistoryEntry) : Prop := ∀ v, s.word e.job = some v → e.hidden = v

/-- The last line of each key that is not buried says what the node has said of the job. -/
def Desk.Unopposed (c : LogFormat) (s : Desk) : Prop :=
  ∀ e, e.key ∉ s.sync.db.tombstones →
    e.key ∉ (allLines (logPaths s.dir)).filterMap (tombstoneOf c.toLogCodec) →
      lastSaid c.toLogCodec s.floor (logPaths s.dir) e.key = some e → s.Honours e

/-- What is recorded of a job says what the node has said of it, the ingest floor does
not fall, and no pass meets a line that says otherwise. -/
def DeskEvent.Keeps (c : LogFormat) (own : Text) (s : Desk) : DeskEvent → Prop
  | .perform op n ino modified =>
    s.floor ≤ (s.after c own (.perform op n ino modified)).floor ∧ match op with
      | .record e => s.Honours e
      | .recordSeqDurable e => s.Honours (LocalOp.canonical c s.dir e)
      | _ => True
  | .refresh _ _ | .interrupt _ _ _ => s.Unopposed c
  | _ => True

def Desk.Start (s : Desk) : Prop :=
  LogsOk s.seen s.dir ∧ (∃ db : Index, db.Valid ∧ s.sync = .opened db) ∧ s.word = fun _ => none

def DeskRun (c : LogFormat) (own : Text) (ok : Desk → DeskEvent → Prop) : Desk → Prop :=
  Run Desk.Start (fun s e t => e.Enabled own s ∧ t = s.after c own e) ok

/-! ### The last line -/

theorem hidden_foldl_absorb (e : HistoryEntry) (es : List HistoryEntry) :
    (es.foldl HistoryEntry.absorb e).hidden = ((e :: es).getLast (List.cons_ne_nil _ _)).hidden := by
  induction es generalizing e with
  | nil => rfl
  | cons x es ih =>
    rw [List.foldl_cons, ih, List.getLast_cons (List.cons_ne_nil _ _)]
    cases es with
    | nil => rfl
    | cons y es => rfl

theorem hidden_saidByAll {c : LogCodec} {floor : Int} {files : List (Text × LogFile)} {k : Key}
    {e : HistoryEntry} (h : saidByAll c floor files k = some e) :
    ∃ x, lastSaid c floor files k = some x ∧ x.key = k ∧ x.hidden = e.hidden := by
  rw [saidByAll] at h
  rw [lastSaid]
  cases hunder : merging.under k ((allEntries c floor files).map Prod.snd) with
  | nil =>
    rw [hunder] at h
    cases h
  | cons x xs =>
    have hmem : (x :: xs).getLast (List.cons_ne_nil x xs) ∈
        merging.under k ((allEntries c floor files).map Prod.snd) := by
      rw [hunder]
      exact List.getLast_mem _
    rw [hunder] at h
    obtain rfl := Option.some.inj h
    refine ⟨_, List.getLast?_eq_some_getLast (List.cons_ne_nil _ _), ?_, ?_⟩
    · exact (Merging.mem_under.mp hmem).2
    · exact (hidden_foldl_absorb x xs).symm

/-! ### The invariant -/

namespace Desk

/-- **The invariant of a node.** -/
structure Inv (c : LogFormat) (s : Desk) : Prop where
  logs : LogsOk s.seen s.dir
  followed : Followed c.toLogCodec s.floor s.seen s.dir s.sync
  honoured : ∀ r ∈ s.sync.db.rows, s.Honours r.entry

variable {c : LogFormat} {own : Text} {s : Desk}

theorem honours_absorb (x e : HistoryEntry) (_ : s.Honours x) (he : s.Honours e)
    (hkey : x.key = e.key) : s.Honours (x.absorb e) := by
  intro v hv
  have hjob : x.job = e.job := congrArg Prod.fst hkey
  exact he v (hjob ▸ hv)

theorem Unopposed.said (h : s.Unopposed c) {e : HistoryEntry} (hk : e.key ∉ s.sync.db.tombstones)
    (hlines : e.key ∉ (allLines (logPaths s.dir)).filterMap (tombstoneOf c.toLogCodec))
    (hspoken : saidByAll c.toLogCodec s.floor (logPaths s.dir) e.key = some e) : s.Honours e := by
  obtain ⟨x, hx, hkey, hhidden⟩ := hidden_saidByAll hspoken
  rw [← hkey] at hk hlines hx
  intro v hv
  have hjob : x.job = e.job := congrArg Prod.fst hkey
  rw [← hhidden]
  exact h x hk hlines hx v (hjob ▸ hv)

theorem heard_self {job : JobId} {hidden finished : Bool} {byClient : Option Text}
    {removedAt : Option Int} {v : Bool}
    (h : s.heard (.setHidden job hidden byClient removedAt) finished job = some v) :
    finished = true ∧ hidden = v := by
  rw [heard, Function.update_self] at h
  split at h
  next hfin => exact ⟨((Bool.and_eq_true _ _).mp hfin).1, Option.some.inj h⟩
  next => nomatch h

theorem floor_le_wait (seconds : Nat) : s.floor ≤ (s.after c own (.wait seconds)).floor :=
  ingestFloor_mono _ _ (by simp [after])

theorem Inv.perform (h : s.Inv c) {op : LocalOp} {n ino modified : Nat}
    (hk : (DeskEvent.perform op n ino modified).Keeps c own s) :
    ∀ r ∈ (s.after c own (.perform op n ino modified)).sync.db.rows,
      (s.after c own (.perform op n ino modified)).Honours r.entry := by
  cases op with
  | record e =>
    have hup : LocalOp.Upholds c s.dir s.sync.db s.Honours (.record e) := ⟨h.honoured, hk.2⟩
    exact hup.tablesAt honours_absorb h.honoured n
  | recordSeqDurable e =>
    have hup : LocalOp.Upholds c s.dir s.sync.db s.Honours (.recordSeqDurable e) :=
      ⟨h.honoured, hk.2⟩
    exact hup.tablesAt honours_absorb h.honoured n
  | delete job =>
    have hup : LocalOp.Upholds c s.dir s.sync.db s.Honours (.delete job) := h.honoured
    exact hup.tablesAt honours_absorb h.honoured n
  | prune now =>
    have hup : LocalOp.Upholds c s.dir s.sync.db s.Honours (.prune now) := h.honoured
    exact hup.tablesAt honours_absorb h.honoured n
  | setHidden job hidden byClient removedAt =>
    let op := LocalOp.setHidden job hidden byClient removedAt
    let t := s.after c own (.perform op n ino modified)
    have hother : ∀ r ∈ s.sync.db.rows, r.entry.job ≠ job → t.Honours r.entry := by
      intro r hr hjob v hv
      exact h.honoured r hr v ((Function.update_of_ne hjob _ _).symm.trans hv)
    have hup : op.Upholds c s.dir s.sync.db t.Honours := by
      intro r hr
      split
      next hjob =>
        intro v hv
        exact (heard_self (hjob ▸ hv)).2
      next hjob => exact hother r hr hjob
    by_cases hfin : op.Finished c s.retention s.dir own s.sync.db n
    · have hdb : t.sync.db = s.sync.db.updateHidden job hidden byClient removedAt :=
        (LocalOp.tablesAt_of_finished hfin).trans LocalOp.tables_setHidden
      change ∀ r ∈ t.sync.db.rows, t.Honours r.entry
      rw [hdb]
      exact LocalOp.forall_rows_updateHidden hup
    · refine hup.tablesAt honours_absorb (fun r hr => ?_) n
      by_cases hjob : r.entry.job = job
      · intro v hv
        exact absurd (of_decide_eq_true (heard_self (hjob ▸ hv)).1) hfin
      · exact hother r hr hjob

theorem Inv.performed (h : s.Inv c) {op : LocalOp} {n ino modified : Nat} (hino : (own, ino) ∉ s.seen)
    (hk : (DeskEvent.perform op n ino modified).Keeps c own s) :
    (s.after c own (.perform op n ino modified)).Inv c := by
  let t := s.after c own (.perform op n ino modified)
  have hgrows := @LocalOp.grows_tablesAt c s.retention s.dir own s.sync.db op n
  have hwrite := (h.followed.write (hgrows.1 h.followed.valid) hgrows.2).mono hk.1
  have hfiles : LogsOk t.seen t.dir ∧ Followed c.toLogCodec t.floor t.seen t.dir t.sync := by
    have hch := @LocalOp.changes_cases c s.retention s.dir own s.sync.db op _ n ino modified hino
    simp only [t, after]
    rcases hch with hch | ⟨ch, hch, henabled⟩
    · rw [hch]
      exact ⟨h.logs, hwrite.valid, hwrite.sorted, hwrite.cached⟩
    · rw [hch]
      have hchange := hwrite.change henabled
      exact ⟨h.logs.change henabled, hchange.valid, hchange.sorted, hchange.cached⟩
  exact ⟨hfiles.1, hfiles.2, h.perform hk⟩

theorem floor_of_evolves {fresh : Key → Prop} {db : Index} (h : Evolves fresh s.sync.db db) :
    ingestFloor db s.retention s.now = s.floor := by
  rw [floor, ingestFloor, h.retentionFloor, ingestFloor]

/-- **The step lemma of a node.** -/
theorem Inv.after (h : s.Inv c) {e : DeskEvent} (he : e.Enabled own s) (hk : e.Keeps c own s) :
    (s.after c own e).Inv c := by
  cases e with
  | perform op n ino modified => exact h.performed he hk
  | change ch => exact ⟨h.logs.change he, h.followed.change he, h.honoured⟩
  | wait seconds => exact ⟨h.logs, h.followed.mono (@floor_le_wait c own s seconds), h.honoured⟩
  | refresh quiet elapsed =>
    rcases replayLogs_cases (c := c.toLogCodec) (r := s.retention) s.sync s.dir quiet elapsed s.now
      with ⟨hsame, -, -⟩ | ⟨full, hpass⟩
    · simp only [Desk.after, hsame]
      exact h
    · have hfloor := floor_of_evolves (s := s)
        (evolves_reconcile c.toLogCodec s.sync full (logPaths s.dir) s.floor)
      have hfollowed := @Followed.reconcile _ full _ _ _ _ h.followed h.logs
      simp only [Desk.after, hpass]
      refine ⟨h.logs, ?_, forall_rows_reconcile h.followed honours_absorb h.honoured ?_⟩
      · exact hfollowed.mono hfloor.ge
      · exact fun e hdb hlines hspoken => hk.said hdb hlines hspoken
  | interrupt quiet elapsed n =>
    simp only [Desk.after]
    split
    next => exact h
    next =>
      have hevolves := evolves_batches
        ((passBatches c s.sync (s.full quiet elapsed) s.floor (logPaths s.dir)).take n) s.sync.db
      refine ⟨h.logs, ?_, forall_rows_committed h.followed honours_absorb h.honoured ?_ n⟩
      · have hfollowed := h.followed.write (hevolves.valid h.followed.valid) hevolves.tombstones
        exact hfollowed.mono (floor_of_evolves (s := s) hevolves).ge
      · exact fun e hdb hlines hspoken => hk.said hdb hlines hspoken
  | restart r => exact ⟨h.logs, (synced_opened h.followed.valid).toFollowed, h.honoured⟩

end Desk

/-- **A job stays hidden, or visible**, as long as no pass meets a line that says
otherwise. -/
theorem hide_stays (c : LogFormat) (own : Text) {s : Desk}
    (h : DeskRun c own (fun s e => e.Keeps c own s) s) :
    ∀ job v, s.word job = some v → ∀ r ∈ s.sync.db.rows, r.entry.job = job → r.entry.hidden = v := by
  have hinv : s.Inv c := by
    refine Run.invariant (fun s hs => ?_) (fun s e t hs hk ht => ?_) h
    · obtain ⟨hlogs, ⟨db, hv, hsync⟩, hword⟩ := hs
      refine ⟨hlogs, ?_, fun r _ v hv => ?_⟩
      · rw [hsync]
        exact (synced_opened hv).toFollowed
      · rw [hword] at hv
        nomatch hv
    · obtain ⟨he, rfl⟩ := ht
      exact hs.after he hk
  intro job v hword r hr hjob
  exact hinv.honoured r hr v (hjob ▸ hword)

/-! ### A job that was completed twice -/

def hiddenLine : List UInt8 := Utf8.ascii
  "\x7b\"job\":8,\"name\":\"a\",\"completed_at_unix\":200,\"hidden\":true,\"removed_at_unix\":300\x7d"

def hiddenEntry : HistoryEntry := { laterEntry with hidden := true, removedAtUnix := some 300 }

def hideTable : Table where
  entries := [(tiedEntry, tiedLine), (laterEntry, laterLine), (hiddenEntry, hiddenLine)]
  tombstones := []
  nodup := by decide
  lines := by decide

def newDesk : Desk := ⟨[], [], 0, .unlimited, .opened .empty, fun _ => none⟩

def deskAfter (events : List DeskEvent) : Desk :=
  events.foldl (fun s e => s.after hideTable.format ownLog e) newDesk

/-- The job is hidden, and there is a pass over all files. -/
def hideEvents : List DeskEvent :=
  [.perform (.hide 8 none 300) 2 3 0, .restart .unlimited, .refresh false false]

def twiceEvents : List DeskEvent :=
  [.perform (.record tiedEntry) 2 1 0, .perform (.record laterEntry) 2 2 0] ++ hideEvents

def onceEvents : List DeskEvent := .perform (.record laterEntry) 2 2 0 :: hideEvents

theorem start_newDesk : newDesk.Start :=
  ⟨⟨List.nodup_nil, fun _ h => absurd h List.not_mem_nil⟩, ⟨.empty, valid_empty, rfl⟩, rfl⟩

theorem DeskRun.after {c : LogFormat} {own : Text} {ok : Desk → DeskEvent → Prop} {s : Desk}
    (h : DeskRun c own ok s) (e : DeskEvent) (he : e.Enabled own s) (hok : ok s e) :
    DeskRun c own ok (s.after c own e) := .step h hok ⟨he, rfl⟩

/-- The older completion of the job is visible again. -/
theorem visible_again : ∃ s, DeskRun hideTable.format ownLog (fun _ _ => True) s ∧
    s.word 8 = some true ∧ ∃ r ∈ s.sync.db.rows, r.entry.job = 8 ∧ r.entry.hidden = false := by
  have h0 : DeskRun hideTable.format ownLog (fun _ _ => True) newDesk := .start start_newDesk
  have h1 := h0.after (.perform (.record tiedEntry) 2 1 0)
    (show (ownLog, 1) ∉ Desk.seen _ by decide +kernel) trivial
  have h2 := h1.after (.perform (.record laterEntry) 2 2 0)
    (show (ownLog, 2) ∉ Desk.seen _ by decide +kernel) trivial
  have h3 := h2.after (.perform (.hide 8 none 300) 2 3 0)
    (show (ownLog, 3) ∉ Desk.seen _ by decide +kernel) trivial
  have h4 := h3.after (.restart .unlimited) trivial trivial
  have h5 := h4.after (.refresh false false) trivial trivial
  exact ⟨deskAfter twiceEvents, h5, by decide +kernel, by decide +kernel⟩

theorem Desk.unopposed_of_lines {c : LogFormat} {s : Desk}
    (h : ∀ e ∈ (allEntries c.toLogCodec s.floor (logPaths s.dir)).map Prod.snd,
      lastSaid c.toLogCodec s.floor (logPaths s.dir) e.key = some e → s.Honours e) :
    s.Unopposed c := by
  intro e _ _ hlast
  have hmem := List.mem_of_getLast? hlast
  exact h e (List.mem_of_mem_filter hmem) hlast

instance (s : Desk) (e : HistoryEntry) : Decidable (s.Honours e) :=
  inferInstanceAs (Decidable (∀ v, s.word e.job = some v → e.hidden = v))

/-- A job that was completed once stays hidden. -/
theorem hide_stays_once : (deskAfter onceEvents).sync.db.rows.map Row.key = [(8, 200)] ∧
    ∀ r ∈ (deskAfter onceEvents).sync.db.rows, r.entry.job = 8 → r.entry.hidden = true := by
  let ok : Desk → DeskEvent → Prop := fun s e => e.Keeps hideTable.format ownLog s
  have h0 : DeskRun hideTable.format ownLog ok newDesk := .start start_newDesk
  have h1 := h0.after (.perform (.record laterEntry) 2 2 0)
    (show (ownLog, 2) ∉ Desk.seen _ by decide +kernel)
    ⟨by decide +kernel, show Desk.Honours _ _ by decide +kernel⟩
  have h2 := h1.after (.perform (.hide 8 none 300) 2 3 0)
    (show (ownLog, 3) ∉ Desk.seen _ by decide +kernel) ⟨by decide +kernel, trivial⟩
  have h3 := h2.after (.restart .unlimited) trivial trivial
  have h4 := h3.after (.refresh false false) trivial
    (Desk.unopposed_of_lines (by decide +kernel))
  exact ⟨by decide +kernel, hide_stays hideTable.format ownLog h4 8 true (by decide +kernel)⟩

end Nzbd.History
