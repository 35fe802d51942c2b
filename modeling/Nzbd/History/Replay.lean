import Nzbd.Lib.Run
import Nzbd.History.Format

/-!
# Two indices over the same logs

Other nodes write complete lines to the logs.  Lines are appended, and files appear,
vanish or are replaced by others.

One index is kept with `replayLogs` and one with `fullReplayLogs`, and both pass at the
same times.  **They are the same after every pass** (`replays_agree`), ids included, if a
new file under a name has an identity that no file has had there since the last pass.
A file that is created under the identity of the one that was removed is taken for it if
the 128 bytes in front of the place are the same (`identity_reused`).
-/

namespace Nzbd.History

open Runs
open Lines
open State (lf)
open Index

structure Site where
  dir : LogDir
  /-- The identities under the names since the last pass. -/
  seen : List (Text × Nat)
  now : Int
  fast : HistorySync
  reference : HistorySync

inductive SiteEvent
  | change (ch : LogChange)
  | wait (seconds : Nat)
  /-- Both indices pass.  Each has its own word on whether the pass is quiet and on
  whether the last full one is long ago. -/
  | pass (quiet elapsed quiet' elapsed' : Bool)

variable (c : LogCodec) (r : Retention)

def identities (dir : LogDir) : List (Text × Nat) := dir.map fun f => (f.1, f.2.ino)

def Site.after (s : Site) : SiteEvent → Site
  | .change ch => { s with dir := ch.apply s.dir, seen := ch.seen s.seen }
  | .wait seconds => { s with now := s.now + seconds }
  | .pass quiet elapsed quiet' elapsed' => { s with
      seen := identities s.dir
      fast := replayLogs c s.fast r s.dir quiet elapsed s.now
      reference := fullReplayLogs c s.reference r s.dir quiet' elapsed' s.now }

/-- The other nodes write complete lines. -/
def SiteEvent.Enabled (s : Site) : SiteEvent → Prop
  | .change ch => ch.Enabled s.seen ∧ ch.Whole
  | .wait _ => True
  | .pass _ _ _ _ => True

/-- The other nodes write complete lines, and a file that replaces another has an identity of
its own. -/
def SiteEvent.Renames (s : Site) : SiteEvent → Prop
  | .change ch => ch.Whole ∧ match ch with
    | .put path ino _ _ => (path, ino) ∉ identities s.dir
    | _ => True
  | _ => True

/-- Some logs, and two indices that were opened over the same tables. -/
def Site.Start (db : Index) (s : Site) : Prop :=
  LogsOk s.seen s.dir ∧ (∀ f ∈ s.dir, torn lf f.2.bytes = []) ∧ s.fast = .opened db ∧
    s.reference = .opened db

def SiteRun (db : Index) : Site → Prop :=
  Run (Site.Start db) (fun s e t => t = s.after c r e) fun s e => e.Enabled s

/-- A created file may have any identity that is not in use. -/
def RenameRun (db : Index) : Site → Prop :=
  Run (Site.Start db) (fun s e t => t = s.after c r e) fun s e => e.Renames s

variable {c r} {seen : List (Text × Nat)} {dir : LogDir} {floor : Int} {s : HistorySync}

theorem SiteRun.after {db : Index} {s : Site} (h : SiteRun c r db s) (e : SiteEvent)
    (he : e.Enabled s) : SiteRun c r db (s.after c r e) := .step h he rfl

theorem RenameRun.after {db : Index} {s : Site} (h : RenameRun c r db s) (e : SiteEvent)
    (he : e.Renames s) : RenameRun c r db (s.after c r e) := .step h he rfl

/-! ### Passes -/

theorem logsOk_identities (h : LogsOk seen dir) : LogsOk (identities dir) dir :=
  ⟨h.nodup, fun _ hf => List.mem_map_of_mem hf⟩

/-- After a pass only the files that are there are known. -/
theorem Synced.forget (h : Synced c floor seen dir s)
    (hfiles : s.fingerprints = (logPaths dir).map fingerprint) :
    Synced c floor (identities dir) dir s :=
  { h with
    cached := fun f hf => by
      refine ⟨?_, (h.cached f hf).2⟩
      obtain ⟨g, hg, hfp⟩ := List.mem_map.mp
        (hfiles ▸ h.fingerprints ▸ List.mem_map_of_mem hf :
          f.2.fingerprint ∈ (logPaths dir).map fingerprint)
      have hpath : g.1 = f.1 := (congrArg Fingerprint.path hfp).trans (h.paths f hf)
      rw [← hfp, ← hpath]
      exact List.mem_map_of_mem (mem_logPaths hg) }

theorem replayedLines_unchanged (hs : Synced c floor seen dir s) (hd : LogsOk seen dir)
    (hsame : s.fingerprints = (logPaths dir).map fingerprint) :
    replayedLines c s.db (logPaths dir) floor = s.db := by
  have hfiles : s.files.map (·.2.fingerprint) = (logPaths dir).map fingerprint :=
    hs.fingerprints.symm.trans hsame
  have hscan : ∀ f ∈ logPaths dir, scanFile c false floor (s.file f.1) f = none := by
    intro f hf
    obtain ⟨g, hg, hfp⟩ := List.mem_map.mp (hfiles ▸ List.mem_map_of_mem hf)
    have hpath : g.1 = f.1 := (hs.paths g hg).symm.trans (congrArg Fingerprint.path hfp)
    rw [← hpath, HistorySync.file_of_mem hs.sorted hg, scanFile, if_pos (by simp [hfp])]
  have hread : readDeltas c s false floor (logPaths dir) = [] :=
    List.filterMap_eq_nil_iff.mpr hscan
  have hgone : s.files.filter (fun g => g.1 ∉ (logPaths dir).map (·.1)) = [] := by
    refine List.filter_eq_nil_iff.mpr fun g hg => ?_
    obtain ⟨f, hf, hfp⟩ := List.mem_map.mp (hfiles ▸ List.mem_map_of_mem hg)
    have hpath : f.1 = g.1 := (congrArg Fingerprint.path hfp).trans (hs.paths g hg)
    simpa using ⟨f.2, hpath ▸ hf⟩
  rw [← @reconcile_db _ false _ _ _ _ hs hd, reconcile, affected, hread, hgone]
  rfl

theorem retentionFloor_foldl_tombstones (db : Index) (ks : List Key) :
    (ks.foldl Index.replayTombstone db).retentionFloor = db.retentionFloor := by
  induction ks generalizing db with
  | nil => rfl
  | cons k ks ih =>
    rw [List.foldl_cons, ih, replayTombstone]
    split <;> rfl

theorem retentionFloor_foldl_entries (db : Index) (es : List HistoryEntry) :
    (es.foldl Index.replayEntry db).retentionFloor = db.retentionFloor := by
  induction es generalizing db with
  | nil => rfl
  | cons e es ih =>
    rw [List.foldl_cons, ih, replayEntry]
    repeat' split
    all_goals rfl

theorem retentionFloor_fullReplay (db : Index) (files : List (Text × LogFile)) :
    (fullReplay c db files floor).retentionFloor = db.retentionFloor := by
  rw [fullReplay, retentionFloor_foldl_entries, retentionFloor_foldl_tombstones]

/-- **The invariant of the two indices.** -/
structure Alike (c : LogCodec) (r : Retention) (s : Site) : Prop where
  logs : LogsOk s.seen s.dir
  whole : ∀ f ∈ s.dir, torn lf f.2.bytes = []
  synced : Synced c (ingestFloor s.fast.db r s.now) s.seen s.dir s.fast
  db : s.fast.db = s.reference.db
  initialized : s.fast.initialized = s.reference.initialized
  fingerprints : s.fast.fingerprints = s.reference.fingerprints

theorem ingestFloor_mono (db : Index) (r : Retention) {now now' : Int} (h : now ≤ now') :
    ingestFloor db r now ≤ ingestFloor db r now' := by
  refine max_le_max le_rfl ?_
  rw [Retention.ageCutoff, Retention.ageCutoff]
  split
  · exact Int.sub_le_sub_right h _
  · exact le_rfl

theorem replayLogs_cases (s : HistorySync) (dir : LogDir) (quiet elapsed : Bool) (now : Int) :
    (replayLogs c s r dir quiet elapsed now = s ∧ s.initialized = true ∧
        s.fingerprints = (logPaths dir).map fingerprint) ∨
      ∃ full, replayLogs c s r dir quiet elapsed now =
        reconcile c s full (logPaths dir) (ingestFloor s.db r now) := by
  rw [replayLogs]
  split
  next h =>
    simp only [Bool.and_eq_true, Bool.not_eq_true', Bool.or_eq_false_iff, Bool.not_eq_false',
      decide_eq_true_eq] at h
    exact .inl ⟨rfl, h.1.1.1.2, h.2⟩
  next => exact .inr ⟨_, rfl⟩

theorem fullReplayLogs_cases (s : HistorySync) (dir : LogDir) (quiet elapsed : Bool) (now : Int) :
    (fullReplayLogs c s r dir quiet elapsed now = s ∧ s.initialized = true ∧
        s.fingerprints = (logPaths dir).map fingerprint) ∨
      fullReplayLogs c s r dir quiet elapsed now = { s with
        db := fullReplay c s.db (logPaths dir) (ingestFloor s.db r now)
        initialized := true
        fingerprints := (logPaths dir).map fingerprint
        dirty := false } := by
  rw [fullReplayLogs]
  split
  next h =>
    simp only [Bool.and_eq_true, Bool.not_eq_true', decide_eq_true_eq] at h
    exact .inl ⟨rfl, h.1.2, h.1.1.2⟩
  next => exact .inr rfl

theorem Alike.pass (hc : c.Coherent) {s : Site} (h : Alike c r s)
    (quiet elapsed quiet' elapsed' : Bool) :
    Alike c r (s.after c r (.pass quiet elapsed quiet' elapsed')) := by
  let floor := ingestFloor s.fast.db r s.now
  let db' := fullReplay c s.fast.db (logPaths s.dir) floor
  have hlines : db' = replayedLines c s.fast.db (logPaths s.dir) floor :=
    fullReplay_eq hc h.synced.valid fun f hf => h.whole f (mem_logPaths hf)
  have hskip : s.fast.fingerprints = (logPaths s.dir).map fingerprint → s.fast.db = db' :=
    fun hsame => (hlines.trans (replayedLines_unchanged h.synced h.logs hsame)).symm
  have hfast : let t := replayLogs c s.fast r s.dir quiet elapsed s.now
      t.db = db' ∧ t.initialized = true ∧ t.fingerprints = (logPaths s.dir).map fingerprint ∧
        Synced c floor (identities s.dir) s.dir t := by
    rcases replayLogs_cases (c := c) (r := r) s.fast s.dir quiet elapsed s.now with
      ⟨ht, hinit, hsame⟩ | ⟨full, ht⟩
    · rw [ht]
      exact ⟨hskip hsame, hinit, hsame, h.synced.forget hsame⟩
    · rw [ht]
      exact ⟨(reconcile_db h.synced h.logs).trans hlines.symm, rfl, rfl,
        (h.synced.reconcile h.logs).forget rfl⟩
  have hreference : let t := fullReplayLogs c s.reference r s.dir quiet' elapsed' s.now
      t.db = db' ∧ t.initialized = true ∧ t.fingerprints = (logPaths s.dir).map fingerprint := by
    rcases fullReplayLogs_cases (c := c) (r := r) s.reference s.dir quiet' elapsed' s.now with
      ⟨ht, hinit, hsame⟩ | ht
    · rw [ht]
      exact ⟨h.db ▸ hskip (h.fingerprints.trans hsame), hinit, hsame⟩
    · rw [ht, ← h.db]
      exact ⟨rfl, rfl, rfl⟩
  obtain ⟨hdb, hinit, hfps, hsynced⟩ := hfast
  obtain ⟨hdb', hinit', hfps'⟩ := hreference
  have hfloor : ingestFloor db' r s.now = floor := by
    rw [ingestFloor, retentionFloor_fullReplay]
    rfl
  refine ⟨logsOk_identities h.logs, h.whole, ?_, hdb.trans hdb'.symm, hinit.trans hinit'.symm,
    hfps.trans hfps'.symm⟩
  change Synced c (ingestFloor (replayLogs c s.fast r s.dir quiet elapsed s.now).db r s.now) _ _ _
  rw [hdb, hfloor]
  exact hsynced

/-- **Incremental ingestion is full replay.** -/
theorem replays_agree (hc : c.Coherent) (r : Retention) {db : Index} (hdb : db.Valid) {s : Site}
    (h : SiteRun c r db s) : s.fast.db = s.reference.db := by
  refine Alike.db (c := c) (r := r) (Run.invariant ?_ ?_ h)
  · rintro s ⟨hlogs, hwhole, hfast, hreference⟩
    refine ⟨hlogs, hwhole, ?_, ?_, ?_, ?_⟩
    · rw [hfast]
      exact synced_opened hdb
    all_goals rw [hfast, hreference]
  · rintro s e t hs he rfl
    cases e with
    | change ch =>
      exact ⟨hs.logs.change he.1, whole_change hs.whole he.2, hs.synced.change he.1, hs.db,
        hs.initialized, hs.fingerprints⟩
    | wait seconds =>
      have hle := ingestFloor_mono s.fast.db r (show s.now ≤ s.now + seconds by omega)
      exact ⟨hs.logs, hs.whole, hs.synced.mono hle, hs.db, hs.initialized, hs.fingerprints⟩
    | pass quiet elapsed quiet' elapsed' => exact hs.pass hc quiet elapsed quiet' elapsed'

/-! ### An episode -/

def episodeStart : Site := ⟨[], [], 100, .opened .empty, .opened .empty⟩

def episodeLog : Text := "history.a.jsonl".toList

/-- A log appears, and then the tombstone of its entry. -/
def episodeEvents : List SiteEvent :=
  [.change (.put episodeLog 1 0 (finishedLine ++ [lf])), .pass true false true false, .wait 5,
    .change (.append episodeLog (buriedLine ++ [lf]) 1), .pass true false true true]

def episode : Site :=
  episodeEvents.foldl (Site.after episodeTable.format.toLogCodec .unlimited) episodeStart

theorem run_episode : SiteRun episodeTable.format.toLogCodec .unlimited .empty episode := by
  have h0 : SiteRun episodeTable.format.toLogCodec .unlimited .empty episodeStart :=
    .start ⟨⟨List.nodup_nil, fun _ h => absurd h List.not_mem_nil⟩,
      fun _ h => absurd h List.not_mem_nil, rfl, rfl⟩
  have h1 := h0.after (.change (.put episodeLog 1 0 (finishedLine ++ [lf])))
    ⟨List.not_mem_nil, torn_line (by decide)⟩
  have h2 := h1.after (.pass true false true false) trivial
  have h3 := h2.after (.wait 5) trivial
  have h4 := h3.after (.change (.append episodeLog (buriedLine ++ [lf]) 1))
    ⟨trivial, torn_line (by decide)⟩
  exact h4.after (.pass true false true true) trivial

theorem replays_agree_episode : episode.fast.db = episode.reference.db :=
  replays_agree episodeTable.format.coherent .unlimited valid_empty run_episode

example : episode.fast.db.lastId = 1 := by decide +kernel
example : episode.fast.db.rows = [] := by decide +kernel

/-! ### An identity that is used again -/

def laterTwice : List UInt8 := laterLine ++ [lf] ++ (laterLine ++ [lf])

/-- **The first line of the new file is never read** by the incremental pass. -/
theorem identity_reused : ∃ s : Site,
    RenameRun episodeTable.format.toLogCodec .unlimited .empty s ∧
      s.fast.db.rows.map (·.entry) = [finishedEntry, laterEntry] ∧
      s.reference.db.rows.map (·.entry) = [finishedEntry, laterEntry, tiedEntry] := by
  have h0 : RenameRun episodeTable.format.toLogCodec .unlimited .empty episodeStart :=
    .start ⟨⟨List.nodup_nil, fun _ h => absurd h List.not_mem_nil⟩,
      fun _ h => absurd h List.not_mem_nil, rfl, rfl⟩
  have h1 := h0.after (.change (.put episodeLog 1 0 (finishedLine ++ [lf] ++ laterTwice)))
    ⟨show torn lf _ = [] by decide +kernel, List.not_mem_nil⟩
  have h2 := h1.after (.pass true false true false) trivial
  have h3 := h2.after (.change (.remove episodeLog)) ⟨trivial, trivial⟩
  have h4 := h3.after (.change (.put episodeLog 1 1
    (tiedLine ++ [lf] ++ laterTwice ++ (laterLine ++ [lf]))))
    ⟨show torn lf _ = [] by decide +kernel, by decide +kernel⟩
  have h5 := h4.after (.pass true false true false) trivial
  exact ⟨_, h5, by decide +kernel, by decide +kernel⟩

end Nzbd.History
