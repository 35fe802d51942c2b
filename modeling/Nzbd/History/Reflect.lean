import Nzbd.History.Durable
import Nzbd.History.Hidden

/-!
# The index and the logs

Some nodes share a directory.  Each writes to its own log and reads all of them.  After
a full pass the index of a node says of every key what a fresh index says
(`index_reflects_logs`), but for what has never been written to a log:

* the time at which other entries of a job were hidden, of which only the newest one is
  written again,
* a payload that differs from the one that the logs have,
* an entry that was completed before 1970.
-/

namespace Nzbd.History

open List Runs LocalOp
open Lines
open State (lf)
open Index

/-! ### What is written to the logs -/

namespace LocalOp

variable (c : LogFormat)

/-- The lines that an operation writes. -/
def newLines (dir : LogDir) (db : Index) : LocalOp → List (List UInt8)
  | record e => if e.key ∈ db.tombstones then [] else [c.entryLine e]
  | recordSeqDurable e => if db.synced e.key then [] else [c.entryLine (canonical c dir e)]
  | setHidden job hidden byClient removedAt =>
    if db.hasJob job then (((db.updateHidden job hidden byClient removedAt).listed job).map
      c.entryLine).toList else []
  | delete job => (db.keysOf job).map c.tombstoneLine
  | prune _ => []

/-- The entry among them. -/
def newEntry (dir : LogDir) (db : Index) : LocalOp → Option HistoryEntry
  | record e => if e.key ∈ db.tombstones then none else some e
  | recordSeqDurable e => if db.synced e.key then none else some (canonical c dir e)
  | setHidden job hidden byClient removedAt =>
    if db.hasJob job then (db.updateHidden job hidden byClient removedAt).listed job else none
  | delete _ | prune _ => none

end LocalOp

/-- Some bytes more in the log of a node. -/
def appendChange (own : Text) (dir : LogDir) (ino modified : Nat) (bytes : List UInt8) : LogChange :=
  if own ∈ dir.map (·.1) then .append own bytes modified else .put own ino modified bytes

section NewLines

variable {c : LogFormat} {dir : LogDir} {own : Text} {db : Index} {op : LocalOp}
  {ino modified : Nat} {seen : List (Text × Nat)} {line : List UInt8}

theorem change_append (bytes : List UInt8) : Write.change own dir ino modified (.append bytes) =
    some (appendChange own dir ino modified bytes) := by
  rw [Write.change, appendChange]
  split <;> rfl

theorem change_index (db : Index) : Write.change own dir ino modified (.index db) = none := rfl

/-- **All that an operation writes to its log is some lines behind it.** -/
theorem changes_eq : (op.writes c .unlimited dir own db).filterMap
    (Write.change own dir ino modified) = if op.newLines c dir db = [] then []
      else [appendChange own dir ino modified (joined lf (op.newLines c dir db))] := by
  cases op with
  | record e =>
    rw [writes, newLines]
    split
    · rfl
    · simp [filterMap_cons, change_index, change_append, line_eq]
  | recordSeqDurable e =>
    rw [writes, newLines, key_canonical, synced]
    split
    · rfl
    · simp [filterMap_cons, change_index, change_append, line_eq]
  | setHidden job hidden byClient removedAt =>
    rw [writes, newLines]
    split
    · cases (db.updateHidden job hidden byClient removedAt).listed job with
      | none => rfl
      | some e => simp [filterMap_cons, change_index, change_append, line_eq]
    · rfl
  | delete job =>
    rw [writes, newLines]
    by_cases hks : db.keysOf job = []
    · rw [if_pos hks, hks]
      rfl
    · rw [if_neg hks, if_neg (by simpa using hks)]
      simp [change_index, change_append, tombstoneLines]
  | prune now => rfl

theorem newLines_cases (h : line ∈ op.newLines c dir db) :
    (∃ e, line = c.entryLine e) ∨ ∃ k, line = c.tombstoneLine k := by
  cases op with
  | record e =>
    rw [newLines] at h
    split at h
    · exact absurd h not_mem_nil
    · exact .inl ⟨e, mem_singleton.mp h⟩
  | recordSeqDurable e =>
    rw [newLines] at h
    split at h
    · exact absurd h not_mem_nil
    · exact .inl ⟨_, mem_singleton.mp h⟩
  | setHidden job hidden byClient removedAt =>
    rw [newLines] at h
    split at h
    · obtain ⟨e, -, rfl⟩ := Option.map_eq_some_iff.mp (Option.mem_toList.mp h)
      exact .inl ⟨e, rfl⟩
    · exact absurd h not_mem_nil
  | delete job =>
    obtain ⟨k, -, rfl⟩ := mem_map.mp h
    exact .inr ⟨k, rfl⟩
  | prune now => exact absurd h not_mem_nil

theorem entry_newLines {x : HistoryEntry} : (∃ l ∈ op.newLines c dir db, c.probe l = false ∧
    c.entry l = some x) ↔ op.newEntry c dir db = some x := by
  have hline : ∀ e, (∃ l ∈ [c.entryLine e], c.probe l = false ∧ c.entry l = some x) ↔
      some e = some x := by
    intro e
    simp [c.probe_entryLine, c.entry_entryLine]
  cases op with
  | record e =>
    rw [newLines, newEntry]
    split
    · simp
    · exact hline e
  | recordSeqDurable e =>
    rw [newLines, newEntry]
    split
    · simp
    · exact hline _
  | setHidden job hidden byClient removedAt =>
    rw [newLines, newEntry]
    split
    · cases (db.updateHidden job hidden byClient removedAt).listed job with
      | none => simp
      | some e => exact hline e
    · simp
  | delete job => simp [newLines, newEntry, c.probe_tombstoneLine]
  | prune now => simp [newLines, newEntry]

theorem lf_notMem_newLines (h : line ∈ op.newLines c dir db) : lf ∉ line := by
  rcases newLines_cases h with ⟨e, rfl⟩ | ⟨k, rfl⟩
  · exact c.lf_notMem_entryLine e
  · exact c.lf_notMem_tombstoneLine k

theorem enabled_appendChange (hino : (own, ino) ∉ seen) (bytes : List UInt8) :
    (appendChange own dir ino modified bytes).Enabled seen := by
  rw [appendChange]
  split
  · trivial
  · exact hino

theorem whole_appendChange {lines : List (List UInt8)} (hlf : ∀ l ∈ lines, lf ∉ l) :
    (appendChange own dir ino modified (joined lf lines)).Whole := by
  have htorn : torn lf (joined lf lines) = [] := by
    have h := torn_joined_append (s := lf) hlf []
    rwa [append_nil, torn_of_not_mem not_mem_nil] at h
  rw [appendChange]
  split <;> exact htorn

theorem mem_allLines_appendChange (hwhole : ∀ f ∈ dir, torn lf f.2.bytes = [])
    (hown : isHistoryLog own) {lines : List (List UInt8)} (hlf : ∀ l ∈ lines, lf ∉ l) :
    line ∈ allLines (logPaths ((appendChange own dir ino modified (joined lf lines)).apply dir)) ↔
      line ∈ allLines (logPaths dir) ∨ line ∈ lines := by
  rw [mem_allLines_logPaths, mem_allLines_logPaths, appendChange]
  have hmore : ∀ b : List UInt8, torn lf b = [] →
      completeLines (b ++ joined lf lines) = completeLines b ++ lines := by
    intro b hb
    have h := complete_append (s := lf) b (joined lf lines)
    rw [hb, nil_append, complete_joined hlf] at h
    exact h
  split
  next hmem =>
    obtain ⟨g, hg, hgown⟩ := mem_map.mp hmem
    constructor
    · rintro ⟨f, hf, hlog, hline⟩
      obtain ⟨f₀, hf₀, rfl⟩ := mem_map.mp hf
      split at hline
      next hname =>
        rw [hmore _ (hwhole f₀ hf₀)] at hline
        rw [if_pos hname] at hlog
        exact (mem_append.mp hline).imp_left fun hl => ⟨f₀, hf₀, hlog, hl⟩
      next hname =>
        rw [if_neg hname] at hlog
        exact .inl ⟨f₀, hf₀, hlog, hline⟩
    · have hmap : ∀ f ∈ dir, ∃ f' ∈ (LogChange.append own (joined lf lines) modified).apply dir,
          f'.1 = f.1 ∧ (∀ l ∈ completeLines f.2.bytes, l ∈ completeLines f'.2.bytes) ∧
            (f.1 = own → ∀ l ∈ lines, l ∈ completeLines f'.2.bytes) := by
        intro f hf
        refine ⟨_, mem_map_of_mem hf, ?_⟩
        split
        next hname =>
          rw [hmore _ (hwhole f hf)]
          exact ⟨rfl, fun l hl => mem_append_left _ hl, fun _ l hl => mem_append_right _ hl⟩
        next hname => exact ⟨rfl, fun l hl => hl, fun h => absurd h hname⟩
      rintro (⟨f, hf, hlog, hline⟩ | hline)
      · obtain ⟨f', hf', hname, hold, -⟩ := hmap f hf
        exact ⟨f', hf', hname ▸ hlog, hold _ hline⟩
      · obtain ⟨f', hf', hname, -, hnew⟩ := hmap g hg
        exact ⟨f', hf', by rw [hname, hgown]; exact hown, hnew hgown _ hline⟩
  next hmem =>
    have hne : ∀ f ∈ dir, f.1 ≠ own := fun f hf he => hmem (he ▸ mem_map_of_mem hf)
    constructor
    · rintro ⟨f, hf, hlog, hline⟩
      rcases mem_append.mp hf with hf | hf
      · exact .inl ⟨f, mem_of_mem_filter hf, hlog, hline⟩
      · obtain rfl := mem_singleton.mp hf
        change line ∈ complete lf (joined lf lines) at hline
        rw [complete_joined hlf] at hline
        exact .inr hline
    · rintro (⟨f, hf, hlog, hline⟩ | hline)
      · exact ⟨f, mem_append_left _ (mem_filter.mpr ⟨hf, decide_eq_true (hne f hf)⟩), hlog,
          hline⟩
      · refine ⟨_, mem_append_right _ (mem_singleton_self _), hown, ?_⟩
        change line ∈ complete lf (joined lf lines)
        rwa [complete_joined hlf]

end NewLines

/-! ### What the logs have of an entry -/

/-- All entries of the logs, in their order. -/
def logged (c : LogCodec) (dir : LogDir) : List HistoryEntry :=
  (allEntries c 0 (logPaths dir)).map Prod.snd

theorem mem_logged {c : LogCodec} {dir : LogDir} {e : HistoryEntry} : e ∈ logged c dir ↔
    0 ≤ e.completedAtUnix ∧ ∃ line ∈ allLines (logPaths dir),
      c.probe line = false ∧ c.entry line = some e := by
  rw [logged, map_snd_allEntries, mem_filter, decide_eq_true_eq, and_comm,
    mem_filterMap]
  refine and_congr_right fun _ => exists_congr fun line => and_congr_right fun _ => ?_
  cases c.probe line <;> simp

/-- The logs have an entry with the same payload, and the rest of it that a replay does
not take away. -/
structure Backed (es : List HistoryEntry) (e : HistoryEntry) : Prop where
  told : ∃ x ∈ es, x.key = e.key
  payload : ∀ x ∈ es, x.key = e.key → x.payload = e.payload
  removedAt : e.removedAtUnix.isSome → ∃ x ∈ es, x.key = e.key ∧ x.removedAtUnix.isSome
  record : e.record.isSome → ∃ x ∈ es, x.key = e.key ∧ x.record.isSome

def Uniform (es : List HistoryEntry) : Prop :=
  ∀ x ∈ es, ∀ y ∈ es, x.key = y.key → x.payload = y.payload

/-- What is compared: all but who has picked it up. -/
def HistoryEntry.face (e : HistoryEntry) : HistoryEntry := { e with pickedUpBy := none }

section Backed

variable {es es' : List HistoryEntry} {e x y : HistoryEntry} {k : Key}

theorem Uniform.backed (h : Uniform es) (he : e ∈ es) : Backed es e :=
  ⟨⟨e, he, rfl⟩, fun x hx hkey => h x hx e he hkey, fun hs => ⟨e, he, rfl, hs⟩,
    fun hs => ⟨e, he, rfl, hs⟩⟩

theorem Backed.absorb (hx : Backed es x) (he : Backed es e) (hkey : x.key = e.key) :
    Backed es (x.absorb e) := by
  refine ⟨hx.told, hx.payload, fun hs => ?_, fun hs => ?_⟩
  · cases hr : e.removedAtUnix with
    | some _ =>
      rw [HistoryEntry.key_absorb, hkey]
      exact he.removedAt (by rw [hr]; rfl)
    | none =>
      refine hx.removedAt ?_
      simpa [HistoryEntry.absorb, hr] using hs
  · cases hr : e.record with
    | some _ =>
      rw [HistoryEntry.key_absorb, hkey]
      exact he.record (by rw [hr]; rfl)
    | none =>
      refine hx.record ?_
      simpa [HistoryEntry.absorb, hr] using hs

theorem Backed.grow (h : Backed es e) (hsub : ∀ x ∈ es, x ∈ es')
    (hnew : ∀ x ∈ es', x ∈ es ∨ (x.key = e.key → x.payload = e.payload)) : Backed es' e where
  told := h.told.imp fun x hx => ⟨hsub x hx.1, hx.2⟩
  payload x hx hkey := (hnew x hx).elim (fun hx => h.payload x hx hkey) fun h => h hkey
  removedAt hs := (h.removedAt hs).imp fun x hx => ⟨hsub x hx.1, hx.2⟩
  record hs := (h.record hs).imp fun x hx => ⟨hsub x hx.1, hx.2⟩

theorem key_of_summary (h : merging.summary (merging.under k es) = some e) : e.key = k :=
  Merging.key_summary h

theorem backed_summary (h : Uniform es) (hsum : merging.summary (merging.under k es) = some e) :
    Backed es e := by
  have hall : ∀ x ∈ merging.under k es, Backed es x ∧ x.key = k := fun x hx =>
    ⟨h.backed (Merging.mem_under.mp hx).1, (Merging.mem_under.mp hx).2⟩
  generalize merging.under k es = l at hsum hall
  cases l with
  | nil => nomatch hsum
  | cons a l =>
    obtain rfl := Option.some.inj hsum
    obtain ⟨ha, hak⟩ := hall a mem_cons_self
    have hrest := fun x hx => hall x (mem_cons_of_mem _ hx)
    clear hall hsum
    induction l generalizing a with
    | nil => exact ha
    | cons b l ih =>
      obtain ⟨hb, hbk⟩ := hrest b mem_cons_self
      exact ih (a.absorb b) (ha.absorb hb (hak.trans hbk.symm)) hak fun x hx =>
        hrest x (mem_cons_of_mem _ hx)

theorem isSome_foldl_absorb {α : Type*} {g : HistoryEntry → Option α}
    (hg : ∀ a b : HistoryEntry, g (a.absorb b) = (g b).or (g a)) (l : List HistoryEntry)
    (a : HistoryEntry) (h : (g a).isSome ∨ ∃ x ∈ l, (g x).isSome) :
    (g (l.foldl HistoryEntry.absorb a)).isSome := by
  induction l generalizing a with
  | nil => exact h.resolve_right fun ⟨x, hx, _⟩ => absurd hx not_mem_nil
  | cons b l ih =>
    refine ih (a.absorb b) ?_
    rw [hg, Option.isSome_or, Bool.or_eq_true]
    rcases h with h | ⟨x, hx, hs⟩
    · exact .inl (.inr h)
    · rcases mem_cons.mp hx with rfl | hx
      · exact .inl (.inl hs)
      · exact .inr ⟨x, hx, hs⟩

theorem isSome_summary {α : Type*} {g : HistoryEntry → Option α}
    (hg : ∀ a b : HistoryEntry, g (a.absorb b) = (g b).or (g a)) {l : List HistoryEntry}
    (hx : x ∈ l) (hs : (g x).isSome) (hsum : merging.summary l = some y) : (g y).isSome := by
  cases l with
  | nil => nomatch hsum
  | cons a l =>
    obtain rfl := Option.some.inj hsum
    refine isSome_foldl_absorb hg l a ?_
    rcases mem_cons.mp hx with rfl | hx
    · exact .inl hs
    · exact .inr ⟨x, hx, hs⟩

/-- **A row that takes in all that is said of its key says nothing else.** -/
theorem Backed.face_absorb (h : Backed es e) (hu : Uniform es)
    (hsum : merging.summary (merging.under e.key es) = some y) : (e.absorb y).face = y.face := by
  have hkey : y.key = e.key := key_of_summary hsum
  have hy := backed_summary hu hsum
  obtain ⟨x, hx, hxk⟩ := h.told
  have hpayload : e.payload = y.payload :=
    (h.payload x hx hxk).symm.trans (hy.payload x hx (hxk.trans hkey.symm))
  have hpart : ∀ {α : Type} (g : HistoryEntry → Option α),
      (∀ a b : HistoryEntry, g (a.absorb b) = (g b).or (g a)) →
        ((g e).isSome → ∃ x ∈ es, x.key = e.key ∧ (g x).isSome) → (g y).or (g e) = g y := by
    intro α g hg hbacked
    cases hy : g y with
    | some _ => rfl
    | none =>
      rw [Option.none_or, ← Option.not_isSome_iff_eq_none]
      intro hs
      obtain ⟨x, hx, hxk, hxs⟩ := hbacked hs
      have hys := isSome_summary hg (Merging.mem_under.mpr ⟨hx, hxk⟩) hxs hsum
      rw [hy] at hys
      nomatch hys
  have hremoved := hpart (·.removedAtUnix) (fun _ _ => rfl) h.removedAt
  have hrecord := hpart (·.record) (fun _ _ => rfl) h.record
  have hjob : e.job = y.job := congrArg Prod.fst hkey.symm
  have htime : e.completedAtUnix = y.completedAtUnix := congrArg Prod.snd hkey.symm
  simp only [HistoryEntry.face, HistoryEntry.absorb, hremoved, hrecord, hpayload, hjob, htime]

end Backed

/-! ### Some nodes -/

/-- The nodes, by the names of their logs. -/
structure Fleet where
  dir : LogDir
  seen : List (Text × Nat)
  nodes : Text → HistorySync

inductive FleetEvent
  | perform (own : Text) (op : LocalOp) (ino modified : Nat)
  | refresh (own : Text) (quiet elapsed : Bool) (now : Int)

/-- No history is dropped. -/
def Fleet.after (c : LogFormat) (s : Fleet) : FleetEvent → Fleet
  | .perform own op ino modified =>
    let db := (s.nodes own).db
    let changes := (op.writes c .unlimited s.dir own db).filterMap
      (Write.change own s.dir ino modified)
    { dir := changes.foldl LogChange.apply s.dir
      seen := changes.foldl LogChange.seen s.seen
      nodes := Function.update s.nodes own
        { s.nodes own with db := op.tables c .unlimited s.dir own db } }
  | .refresh own quiet elapsed now => { s with
      nodes := Function.update s.nodes own
        (replayLogs c.toLogCodec (s.nodes own) .unlimited s.dir quiet elapsed now) }

/-- The log of a node is a log, and a new file has a new identity. -/
def FleetEvent.Enabled (s : Fleet) : FleetEvent → Prop
  | .perform own _ ino _ => isHistoryLog own ∧ (own, ino) ∉ s.seen
  | .refresh _ _ _ _ => True

/-- Nothing goes into the tables alone: what is recorded was completed after 1970 and has
the payload that the logs have, and of a job that is hidden the logs get, or have, a time
for each completion. -/
def FleetEvent.Portable (c : LogFormat) (s : Fleet) : FleetEvent → Prop
  | .perform own (.record e) _ _ => e.key ∈ (s.nodes own).db.tombstones ∨
      0 ≤ e.completedAtUnix ∧ ∀ x ∈ logged c.toLogCodec s.dir, x.key = e.key → x.payload = e.payload
  | .perform _ (.recordSeqDurable e) _ _ => 0 ≤ e.completedAtUnix
  | .perform own (.setHidden job hidden byClient removedAt) _ _ => hidden = true → removedAt.isSome →
      ∀ r ∈ (s.nodes own).db.rows, r.entry.job = job →
        (((s.nodes own).db.updateHidden job hidden byClient removedAt).listed job).map
          HistoryEntry.key = some r.key ∨
        ∃ x ∈ logged c.toLogCodec s.dir, x.key = r.key ∧ x.removedAtUnix.isSome
  | _ => True

/-- No logs, and nodes with new indices. -/
def Fleet.start : Fleet := ⟨[], [], fun _ => .opened .empty⟩

def FleetRun (c : LogFormat) (ok : Fleet → FleetEvent → Prop) : Fleet → Prop :=
  Run (· = Fleet.start) (fun s e t => e.Enabled s ∧ t = s.after c e) ok

/-! ### The invariant -/

/-- What a node has is in the logs. -/
structure NodeOk (c : LogFormat) (seen : List (Text × Nat)) (dir : LogDir) (sync : HistorySync) :
    Prop where
  followed : Followed c.toLogCodec 0 seen dir sync
  floor : sync.db.retentionFloor = none
  backed : ∀ r ∈ sync.db.rows, Backed (logged c.toLogCodec dir) r.entry
  buried : ∀ k ∈ sync.db.tombstones,
    k ∈ (allLines (logPaths dir)).filterMap (tombstoneOf c.toLogCodec)

/-- **The invariant of the nodes.** -/
structure Fleet.Inv (c : LogFormat) (s : Fleet) : Prop where
  logs : LogsOk s.seen s.dir
  whole : ∀ f ∈ s.dir, torn lf f.2.bytes = []
  written : ∀ line ∈ allLines (logPaths s.dir),
    (∃ e, line = c.entryLine e) ∨ ∃ k, line = c.tombstoneLine k
  uniform : Uniform (logged c.toLogCodec s.dir)
  nodes : ∀ own, NodeOk c s.seen s.dir (s.nodes own)

section Fleet

variable {c : LogFormat} {s : Fleet}

theorem ingestFloor_unlimited {db : Index} (h : db.retentionFloor = none) (now : Int) :
    ingestFloor db .unlimited now = 0 := by
  rw [ingestFloor, h]
  rfl

theorem NodeOk.refresh {sync : HistorySync} (h : NodeOk c s.seen s.dir sync) (hlogs : LogsOk s.seen s.dir)
    (hu : Uniform (logged c.toLogCodec s.dir)) (quiet elapsed : Bool) (now : Int) :
    NodeOk c s.seen s.dir (replayLogs c.toLogCodec sync .unlimited s.dir quiet elapsed now) := by
  rcases replayLogs_cases (c := c.toLogCodec) (r := .unlimited) sync s.dir quiet elapsed now
    with ⟨hsame, -, -⟩ | ⟨full, hpass⟩
  · rw [hsame]
    exact h
  · rw [hpass, ingestFloor_unlimited h.floor]
    refine ⟨h.followed.reconcile hlogs, ?_, ?_, fun k hk => ?_⟩
    · exact (evolves_reconcile c.toLogCodec sync full (logPaths s.dir) 0).retentionFloor.trans h.floor
    · refine forall_rows_reconcile h.followed (fun x e hx he hkey => hx.absorb he hkey) h.backed ?_
      exact fun e _ _ hspoken => backed_summary hu hspoken
    · rw [tombstones_reconcile h.followed, Finset.mem_union, mem_toFinset] at hk
      exact hk.elim (h.buried k) id

theorem listed_updateHidden {db : Index} {job : JobId} {hidden : Bool} {byClient : Option Text}
    {removedAt : Option Int} {x : HistoryEntry}
    (h : (db.updateHidden job hidden byClient removedAt).listed job = some x) :
    ∃ r ∈ db.rows, r.entry.job = job ∧ x = r.entry.marked hidden byClient removedAt := by
  rw [listed] at h
  obtain ⟨r', hfind, rfl⟩ := Option.map_eq_some_iff.mp h
  have hjob : r'.entry.job = job := by simpa using find?_some hfind
  have hmem := mem_newestFirst.mp (mem_of_mem_take (mem_of_find?_eq_some hfind))
  obtain ⟨r, hr, rfl⟩ := mem_map.mp hmem
  split at hjob
  next hrjob =>
    refine ⟨r, hr, hrjob, ?_⟩
    rw [if_pos hrjob]
    rfl
  next hrjob => exact absurd hjob hrjob

theorem portableEntry_eq_some {dir : LogDir} (hwhole : ∀ f ∈ dir, torn lf f.2.bytes = []) {k : Key}
    {x : HistoryEntry} (h : portableEntry c.toLogCodec dir k = some x) (h0 : 0 ≤ k.2) :
    x.key = k ∧ x ∈ logged c.toLogCodec dir := by
  obtain ⟨line, hline, hx⟩ := exists_of_findSome?_eq_some h
  obtain ⟨hentry, hkey⟩ := Option.filter_eq_some_iff.mp hx
  have hkey : x.key = k := of_decide_eq_true hkey
  obtain ⟨f, hf, hline⟩ := mem_flatMap.mp hline
  rw [splitLines_of_whole (hwhole f (mem_logPaths hf))] at hline
  rw [entryOf] at hentry
  split at hentry
  next => cases hentry
  next htomb =>
    have htomb : c.tombstone line = none := by simpa using htomb
    have hprobe : c.probe line = false := by
      by_contra hp
      rw [c.coherent line x (by simpa using hp) hentry] at htomb
      cases htomb
    refine ⟨hkey, mem_logged.mpr ⟨?_, line, mem_flatMap.mpr ⟨f, hf, hline⟩, hprobe, hentry⟩⟩
    exact (congrArg Prod.snd hkey).ge.trans' h0

theorem Fleet.Inv.portableEntry_eq_none (h : s.Inv c) {k : Key}
    (hnone : portableEntry c.toLogCodec s.dir k = none) :
    ∀ x ∈ logged c.toLogCodec s.dir, x.key ≠ k := by
  intro x hx hkey
  obtain ⟨-, line, hline, hprobe, hentry⟩ := mem_logged.mp hx
  have htomb : c.tombstone line = none := by
    rcases h.written line hline with ⟨e, rfl⟩ | ⟨k, rfl⟩
    · exact c.tombstone_entryLine e
    · rw [c.probe_tombstoneLine] at hprobe
      nomatch hprobe
  obtain ⟨f, hf, hline⟩ := mem_flatMap.mp hline
  rw [← splitLines_of_whole (h.whole f (mem_logPaths hf))] at hline
  have hread := findSome?_eq_none_iff.mp hnone line (mem_flatMap.mpr ⟨f, hf, hline⟩)
  rw [entryOf, htomb, if_neg (by simp), hentry] at hread
  simp [hkey] at hread

/-- **What is written to the logs has the payload that they have.** -/
theorem Fleet.Inv.newEntry (h : s.Inv c) {own : Text} {op : LocalOp} {ino modified : Nat}
    (hp : (FleetEvent.perform own op ino modified).Portable c s) {x : HistoryEntry}
    (hx : op.newEntry c s.dir (s.nodes own).db = some x) :
    0 ≤ x.completedAtUnix ∧ ∀ y ∈ logged c.toLogCodec s.dir, y.key = x.key → y.payload = x.payload := by
  cases op with
  | record e =>
    rw [LocalOp.newEntry] at hx
    split at hx
    next => cases hx
    next hburied =>
      obtain rfl := Option.some.inj hx
      exact hp.resolve_left hburied
  | recordSeqDurable e =>
    rw [LocalOp.newEntry] at hx
    split at hx
    next => cases hx
    next =>
      obtain rfl := Option.some.inj hx
      have h0 : 0 ≤ e.completedAtUnix := hp
      cases hlog : portableEntry c.toLogCodec s.dir e.key with
      | none =>
        have hcanonical : canonical c s.dir e = e := by
          rw [canonical, hlog]
          rfl
        rw [hcanonical]
        exact ⟨h0, fun y hy hkey => absurd hkey (h.portableEntry_eq_none hlog y hy)⟩
      | some x =>
        have hcanonical : canonical c s.dir e = x := by
          rw [canonical, hlog]
          rfl
        obtain ⟨-, hmem⟩ := portableEntry_eq_some h.whole hlog h0
        rw [hcanonical]
        exact ⟨(mem_logged.mp hmem).1, fun y hy hkey => h.uniform y hy x hmem hkey⟩
  | setHidden job hidden byClient removedAt =>
    rw [LocalOp.newEntry] at hx
    split at hx
    next =>
      obtain ⟨r, hr, -, rfl⟩ := listed_updateHidden hx
      have hbacked := (h.nodes own).backed r hr
      obtain ⟨y, hy, hkey⟩ := hbacked.told
      exact ⟨(mem_logged.mp hy).1.trans (congrArg Prod.snd hkey).le, hbacked.payload⟩
    next => cases hx
  | delete job => cases hx
  | prune now => cases hx

/-! ### Operations -/

theorem tombstones_insertSeq (db : Index) (e : HistoryEntry) :
    (db.insertSeq e).tombstones = db.tombstones := by
  rw [insertSeq]
  repeat' split
  all_goals rfl

section Perform

variable {own : Text} {op : LocalOp} {ino modified : Nat}

theorem Fleet.Inv.lines (h : s.Inv c) (hown : isHistoryLog own) (line : List UInt8) :
    line ∈ allLines (logPaths (s.after c (.perform own op ino modified)).dir) ↔
      line ∈ allLines (logPaths s.dir) ∨ line ∈ op.newLines c s.dir (s.nodes own).db := by
  simp only [Fleet.after, changes_eq]
  split
  next hnil => simp [hnil]
  next => exact mem_allLines_appendChange h.whole hown fun l hl => lf_notMem_newLines hl

theorem Fleet.Inv.mem_logged_perform (h : s.Inv c) (hown : isHistoryLog own)
    (hp : (FleetEvent.perform own op ino modified).Portable c s) (x : HistoryEntry) :
    x ∈ logged c.toLogCodec (s.after c (.perform own op ino modified)).dir ↔
      x ∈ logged c.toLogCodec s.dir ∨ op.newEntry c s.dir (s.nodes own).db = some x := by
  rw [mem_logged, mem_logged, ← entry_newLines]
  constructor
  · rintro ⟨h0, line, hline, hread⟩
    exact ((h.lines hown line).mp hline).imp (fun hl => ⟨h0, line, hl, hread⟩)
      fun hl => ⟨line, hl, hread⟩
  · rintro (⟨h0, line, hline, hread⟩ | ⟨line, hline, hread⟩)
    · exact ⟨h0, line, (h.lines hown line).mpr (.inl hline), hread⟩
    · refine ⟨?_, line, (h.lines hown line).mpr (.inr hline), hread⟩
      exact (h.newEntry hp (entry_newLines.mp ⟨line, hline, hread⟩)).1

theorem Fleet.Inv.backed_perform (h : s.Inv c) (hown : isHistoryLog own)
    (hp : (FleetEvent.perform own op ino modified).Portable c s) {e : HistoryEntry}
    (he : Backed (logged c.toLogCodec s.dir) e) :
    Backed (logged c.toLogCodec (s.after c (.perform own op ino modified)).dir) e := by
  refine he.grow (fun x hx => (h.mem_logged_perform hown hp x).mpr (.inl hx)) fun x hx => ?_
  refine ((h.mem_logged_perform hown hp x).mp hx).imp_right fun hx hkey => ?_
  obtain ⟨y, hy, hyk⟩ := he.told
  rw [← he.payload y hy hyk]
  exact ((h.newEntry hp hx).2 y hy (hyk.trans hkey.symm)).symm

theorem Fleet.Inv.uniform_perform (h : s.Inv c) (hown : isHistoryLog own)
    (hp : (FleetEvent.perform own op ino modified).Portable c s) :
    Uniform (logged c.toLogCodec (s.after c (.perform own op ino modified)).dir) := by
  intro x hx y hy hkey
  rcases (h.mem_logged_perform hown hp x).mp hx with hx | hx <;>
    rcases (h.mem_logged_perform hown hp y).mp hy with hy | hy
  · exact h.uniform x hx y hy hkey
  · exact (h.newEntry hp hy).2 x hx hkey
  · exact ((h.newEntry hp hx).2 y hy hkey.symm).symm
  · rw [Option.some.inj (hx.symm.trans hy)]

/-- **What a node writes to its tables is in the logs.** -/
theorem Fleet.Inv.rows_perform (h : s.Inv c) (hown : isHistoryLog own)
    (hp : (FleetEvent.perform own op ino modified).Portable c s) :
    ∀ r ∈ (op.tables c .unlimited s.dir own (s.nodes own).db).rows,
      Backed (logged c.toLogCodec (s.after c (.perform own op ino modified)).dir) r.entry := by
  have hrows : ∀ r ∈ (s.nodes own).db.rows,
      Backed (logged c.toLogCodec (s.after c (.perform own op ino modified)).dir) r.entry :=
    fun r hr => h.backed_perform hown hp ((h.nodes own).backed r hr)
  have hnew : ∀ x, op.newEntry c s.dir (s.nodes own).db = some x →
      Backed (logged c.toLogCodec (s.after c (.perform own op ino modified)).dir) x :=
    fun x hx => (h.uniform_perform hown hp).backed ((h.mem_logged_perform hown hp x).mpr (.inr hx))
  have habs : ∀ x e, Backed (logged c.toLogCodec (s.after c (.perform own op ino modified)).dir) x →
      Backed (logged c.toLogCodec (s.after c (.perform own op ino modified)).dir) e →
      x.key = e.key →
      Backed (logged c.toLogCodec (s.after c (.perform own op ino modified)).dir) (x.absorb e) :=
    fun x e hx he hkey => hx.absorb he hkey
  cases op with
  | record e =>
    by_cases hburied : e.key ∈ (s.nodes own).db.tombstones
    · have hsame : tables c .unlimited s.dir own (s.nodes own).db (.record e) =
          (s.nodes own).db := by
        rw [tables, writes, if_pos hburied, insertSeq, if_pos hburied]
        rfl
      rwa [hsame]
    · have hup : LocalOp.Upholds c s.dir (s.nodes own).db _ (.record e) :=
        ⟨hrows, hnew e (if_neg hburied)⟩
      exact hup.tables habs hrows
  | recordSeqDurable e =>
    by_cases hsynced : (s.nodes own).db.synced e.key = true
    · have hsame : tables c .unlimited s.dir own (s.nodes own).db (.recordSeqDurable e) =
          (s.nodes own).db := by
        rw [tables, writes, key_canonical]
        exact congrArg (foldl Write.onTables (s.nodes own).db) (if_pos hsynced)
      rwa [hsame]
    · have hup : LocalOp.Upholds c s.dir (s.nodes own).db _ (.recordSeqDurable e) :=
        ⟨hrows, hnew _ (if_neg hsynced)⟩
      exact hup.tables habs hrows
  | setHidden job hidden byClient removedAt =>
    refine LocalOp.Upholds.tables habs hrows ?_
    intro r hr
    have hold := hrows r hr
    split
    next hjob =>
      refine ⟨hold.told, hold.payload, fun hs => ?_, hold.record⟩
      have hhidden : hidden = true ∧ removedAt.isSome := by
        cases hidden with
        | true => exact ⟨rfl, hs⟩
        | false => cases hs
      -- a line with the time is there, or is written now
      rcases hp hhidden.1 hhidden.2 r hr hjob with hlisted | ⟨x, hx, hkey, hsome⟩
      · obtain ⟨x, hx, hkey⟩ := Option.map_eq_some_iff.mp hlisted
        have hhas : (s.nodes own).db.hasJob job = true :=
          any_eq_true.mpr ⟨r, hr, decide_eq_true hjob⟩
        refine ⟨x, (h.mem_logged_perform hown hp x).mpr (.inr ((if_pos hhas).trans hx)), hkey, ?_⟩
        obtain ⟨r', -, -, rfl⟩ := listed_updateHidden hx
        exact hs
      · exact ⟨x, (h.mem_logged_perform hown hp x).mpr (.inl hx), hkey, hsome⟩
    next => exact hold
  | delete job =>
    have hup : LocalOp.Upholds c s.dir (s.nodes own).db _ (.delete job) := hrows
    exact hup.tables habs hrows
  | prune now => exact hrows

theorem Fleet.Inv.tombstones_perform (h : s.Inv c) (hown : isHistoryLog own) :
    ∀ k ∈ (op.tables c .unlimited s.dir own (s.nodes own).db).tombstones,
      k ∈ (allLines (logPaths (s.after c (.perform own op ino modified)).dir)).filterMap
        (tombstoneOf c.toLogCodec) := by
  have hlog : ∀ k ∈ (s.nodes own).db.tombstones,
      k ∈ (allLines (logPaths (s.after c (.perform own op ino modified)).dir)).filterMap
        (tombstoneOf c.toLogCodec) := by
    intro k hk
    obtain ⟨line, hline, hread⟩ := mem_filterMap.mp ((h.nodes own).buried k hk)
    exact mem_filterMap.mpr ⟨line, (h.lines hown line).mpr (.inl hline), hread⟩
  cases op with
  | record e =>
    have htables : tables c .unlimited s.dir own (s.nodes own).db (.record e) =
        (s.nodes own).db.insertSeq e := by
      rw [tables, writes]
      split <;> rfl
    rw [htables, tombstones_insertSeq]
    exact hlog
  | recordSeqDurable e =>
    have htombs : (tables c .unlimited s.dir own (s.nodes own).db
        (.recordSeqDurable e)).tombstones = (s.nodes own).db.tombstones := by
      rw [tables, writes]
      split
      · rfl
      · exact tombstones_insertSeq _ _
    rw [htombs]
    exact hlog
  | setHidden job hidden byClient removedAt =>
    rw [tables_setHidden]
    exact hlog
  | delete job =>
    rw [tables_delete, foldl_tombstones_eq]
    intro k hk
    rcases Finset.mem_union.mp hk with hk | hk
    · exact hlog k hk
    · have hk := mem_dedup.mp (mem_toFinset.mp hk)
      refine mem_filterMap.mpr ⟨c.tombstoneLine k, (h.lines hown _).mpr (.inr ?_), ?_⟩
      · exact mem_map_of_mem hk
      · exact tombstoneOf_tombstoneLine c k
  | prune now => exact hlog

theorem Fleet.Inv.files_perform (h : s.Inv c) (hino : (own, ino) ∉ s.seen) :
    let t := s.after c (.perform own op ino modified)
    LogsOk t.seen t.dir ∧ (∀ f ∈ t.dir, torn lf f.2.bytes = []) ∧
      ∀ sync, Followed c.toLogCodec 0 s.seen s.dir sync →
        Followed c.toLogCodec 0 t.seen t.dir sync := by
  simp only [Fleet.after, changes_eq]
  split
  next => exact ⟨h.logs, h.whole, fun sync hs => hs⟩
  next =>
    have henabled := @enabled_appendChange s.dir own ino modified _ hino
      (joined lf (op.newLines c s.dir (s.nodes own).db))
    refine ⟨h.logs.change henabled, whole_change h.whole ?_, fun sync hs => hs.change henabled⟩
    exact whole_appendChange fun l hl => lf_notMem_newLines hl

theorem retentionFloor_tables {db : Index} (dir : LogDir) :
    (op.tables c .unlimited dir own db).retentionFloor = db.retentionFloor := by
  by_cases hop : ∃ now, op = .prune now
  · obtain ⟨now, rfl⟩ := hop
    rfl
  · exact (evolves_tables fun now h => hop ⟨now, h⟩).retentionFloor

theorem grows_tables {db : Index} (dir : LogDir) :
    (db.Valid → (op.tables c .unlimited dir own db).Valid) ∧
      db.tombstones ⊆ (op.tables c .unlimited dir own db).tombstones := by
  rw [← tablesAt_of_finished (n := (op.writes c .unlimited dir own db).length) le_rfl]
  exact grows_tablesAt _

theorem Fleet.Inv.perform (h : s.Inv c) (he : (FleetEvent.perform own op ino modified).Enabled s)
    (hp : (FleetEvent.perform own op ino modified).Portable c s) :
    (s.after c (.perform own op ino modified)).Inv c := by
  obtain ⟨hlogs, hwhole, hfollowed⟩ := @Fleet.Inv.files_perform c s own op ino modified h he.2
  refine ⟨hlogs, hwhole, fun line hline => ?_, h.uniform_perform he.1 hp, fun own' => ?_⟩
  · exact ((h.lines he.1 line).mp hline).elim (h.written line) newLines_cases
  · by_cases hown : own' = own
    · subst hown
      have hnode := h.nodes own'
      obtain ⟨hvalid, htombs⟩ := @grows_tables c own' op
        (s.nodes own').db s.dir
      have hself : (s.after c (.perform own' op ino modified)).nodes own' =
          { s.nodes own' with db := op.tables c .unlimited s.dir own' (s.nodes own').db } :=
        Function.update_self _ _ _
      rw [hself]
      refine ⟨hfollowed _ (hnode.followed.write (hvalid hnode.followed.valid) htombs), ?_,
        h.rows_perform he.1 hp, h.tombstones_perform he.1⟩
      exact (retentionFloor_tables s.dir).trans hnode.floor
    · have hother : (s.after c (.perform own op ino modified)).nodes own' = s.nodes own' :=
        Function.update_of_ne hown _ _
      have hnode := h.nodes own'
      rw [hother]
      refine ⟨hfollowed _ hnode.followed, hnode.floor,
        fun r hr => h.backed_perform he.1 hp (hnode.backed r hr), fun k hk => ?_⟩
      obtain ⟨line, hline, hread⟩ := mem_filterMap.mp (hnode.buried k hk)
      exact mem_filterMap.mpr ⟨line, (h.lines he.1 line).mpr (.inl hline), hread⟩

end Perform

/-- **The step lemma of the nodes.** -/
theorem Fleet.Inv.after (h : s.Inv c) {e : FleetEvent} (he : e.Enabled s) (hp : e.Portable c s) :
    (s.after c e).Inv c := by
  cases e with
  | perform own op ino modified => exact h.perform he hp
  | refresh own quiet elapsed now =>
    refine ⟨h.logs, h.whole, h.written, h.uniform, fun own' => ?_⟩
    by_cases hown : own' = own
    · subst hown
      have hself : (s.after c (.refresh own' quiet elapsed now)).nodes own' =
          replayLogs c.toLogCodec (s.nodes own') .unlimited s.dir quiet elapsed now :=
        Function.update_self _ _ _
      rw [hself]
      exact ((h.nodes own').refresh h.logs h.uniform quiet elapsed now)
    · have hother : (s.after c (.refresh own quiet elapsed now)).nodes own' = s.nodes own' :=
        Function.update_of_ne hown _ _
      rw [hother]
      exact h.nodes own'

theorem Fleet.inv_start : Fleet.start.Inv c where
  logs := ⟨nodup_nil, fun _ h => absurd h not_mem_nil⟩
  whole _ h := absurd h not_mem_nil
  written _ h := absurd h not_mem_nil
  uniform _ h := absurd h not_mem_nil
  nodes _ := ⟨(synced_opened valid_empty).toFollowed, rfl, fun _ h => absurd h not_mem_nil,
    fun _ h => absurd h (Finset.notMem_empty _)⟩

/-- **After a full pass the tables say what the logs say.** -/
theorem NodeOk.entry_full {sync : HistorySync} (h : NodeOk c s.seen s.dir sync) (hlogs : LogsOk s.seen s.dir)
    (hu : Uniform (logged c.toLogCodec s.dir)) (now : Int) (k : Key) :
    ((reconcile c.toLogCodec sync true (logPaths s.dir) 0).db.entry k).map HistoryEntry.face =
      ((freshIndex c.toLogCodec s.dir now).entry k).map HistoryEntry.face := by
  rw [h.followed.reconcile_full hlogs, entry_freshIndex hlogs.nodup]
  split
  next hk =>
    rw [entry_replayedLines_buried h.followed.valid
      (Finset.mem_union_right _ (mem_toFinset.mpr hk))]
  next hk =>
    have hout : k ∉ sync.db.tombstones ∪
        ((allLines (logPaths s.dir)).filterMap (tombstoneOf c.toLogCodec)).toFinset := by
      rw [Finset.mem_union, mem_toFinset, not_or]
      exact ⟨fun hmem => hk (h.buried k hmem), hk⟩
    rw [entry_replayedLines hout]
    cases hentry : sync.db.entry k with
    | none =>
      cases saidByAll c.toLogCodec 0 (logPaths s.dir) k <;> rfl
    | some e =>
      obtain ⟨r, hrow, rfl⟩ := Option.map_eq_some_iff.mp hentry
      have hkey : r.key = k := by simpa using find?_some hrow
      have hbacked := h.backed r (mem_of_find?_eq_some hrow)
      cases hsaid : saidByAll c.toLogCodec 0 (logPaths s.dir) k with
      | none =>
        obtain ⟨x, hx, hxk⟩ := hbacked.told
        have hmem : x ∈ merging.under k (logged c.toLogCodec s.dir) :=
          Merging.mem_under.mpr ⟨hx, hxk.trans hkey⟩
        rw [saidByAll] at hsaid
        cases hunder : merging.under k (logged c.toLogCodec s.dir) with
        | nil => exact absurd (hunder ▸ hmem) not_mem_nil
        | cons y ys =>
          have hsome : merging.summary (merging.under k (logged c.toLogCodec s.dir)) = none := hsaid
          rw [hunder] at hsome
          exact absurd hsome (Option.some_ne_none _)
      | some y =>
        have hface := hbacked.face_absorb hu (y := y) (by
          rw [show r.entry.key = k from hkey]
          exact hsaid)
        exact congrArg some hface

end Fleet

/-- **The index is a function of the logs**, as long as nothing goes into the tables alone. -/
theorem index_reflects_logs (c : LogFormat) {s : Fleet}
    (h : FleetRun c (fun s e => e.Portable c s) s) (own : Text) (elapsed : Bool) (now now' : Int)
    (k : Key) :
    ((replayLogs c.toLogCodec (s.nodes own) .unlimited s.dir false elapsed now).db.entry k).map
        HistoryEntry.face =
      ((freshIndex c.toLogCodec s.dir now').entry k).map HistoryEntry.face := by
  have hinv : s.Inv c := by
    refine Run.invariant (fun s hs => ?_) (fun s e t hs hp ht => ?_) h
    · exact hs ▸ Fleet.inv_start
    · obtain ⟨he, rfl⟩ := ht
      exact hs.after he hp
  have hnode := hinv.nodes own
  have hpass : replayLogs c.toLogCodec (s.nodes own) .unlimited s.dir false elapsed now =
      reconcile c.toLogCodec (s.nodes own) true (logPaths s.dir) 0 := by
    rw [← ingestFloor_unlimited hnode.floor now]
    rfl
  rw [hpass]
  exact hnode.entry_full hinv.logs hinv.uniform now' k

/-! ### A job that was completed twice -/

theorem FleetRun.after {c : LogFormat} {ok : Fleet → FleetEvent → Prop} {s : Fleet}
    (h : FleetRun c ok s) (e : FleetEvent) (he : e.Enabled s) (hok : ok s e) :
    FleetRun c ok (s.after c e) := .step h hok ⟨he, rfl⟩

def fleetAfter (events : List FleetEvent) : Fleet :=
  events.foldl (Fleet.after hideTable.format) Fleet.start

def hiddenTwice : List FleetEvent :=
  [.perform ownLog (.record tiedEntry) 1 0, .perform ownLog (.record laterEntry) 2 0,
    .perform ownLog (.hide 8 none 300) 3 0]

/-- The older completion of the job has a time in the tables of the node alone. -/
theorem removed_at_unlogged : ∃ s, FleetRun hideTable.format (fun _ _ => True) s ∧
    ((replayLogs hideTable.format.toLogCodec (s.nodes ownLog) .unlimited s.dir false false 0).db.entry
      (8, 100)).map HistoryEntry.face ≠
    ((freshIndex hideTable.format.toLogCodec s.dir 0).entry (8, 100)).map HistoryEntry.face := by
  have h0 : FleetRun hideTable.format (fun _ _ => True) Fleet.start := .start rfl
  have h1 := h0.after (.perform ownLog (.record tiedEntry) 1 0)
    ⟨by decide, not_mem_nil⟩ trivial
  have h2 := h1.after (.perform ownLog (.record laterEntry) 2 0)
    ⟨by decide, show (ownLog, 2) ∉ Fleet.seen _ by decide +kernel⟩ trivial
  have h3 := h2.after (.perform ownLog (.hide 8 none 300) 3 0)
    ⟨by decide, show (ownLog, 3) ∉ Fleet.seen _ by decide +kernel⟩ trivial
  exact ⟨fleetAfter hiddenTwice, h3, by decide +kernel⟩

def peerName : Text := "history.b.jsonl".toList

def hiddenOnce : List FleetEvent :=
  [.perform ownLog (.record laterEntry) 1 0, .refresh peerName true true 0,
    .perform ownLog (.hide 8 none 300) 2 0]

/-- A peer sees the job hidden. -/
theorem index_reflects_hidden :
    ((freshIndex hideTable.format.toLogCodec (fleetAfter hiddenOnce).dir 0).entry (8, 200)).isSome ∧
    ((replayLogs hideTable.format.toLogCodec ((fleetAfter hiddenOnce).nodes peerName) .unlimited
        (fleetAfter hiddenOnce).dir false false 0).db.entry (8, 200)).map HistoryEntry.face =
      ((freshIndex hideTable.format.toLogCodec (fleetAfter hiddenOnce).dir 0).entry (8, 200)).map
        HistoryEntry.face := by
  let ok : Fleet → FleetEvent → Prop := fun s e => e.Portable hideTable.format s
  have h0 : FleetRun hideTable.format ok Fleet.start := .start rfl
  have h1 := h0.after (.perform ownLog (.record laterEntry) 1 0) ⟨by decide, not_mem_nil⟩
    (.inr ⟨by decide, fun _ hx => absurd hx not_mem_nil⟩)
  have h2 := h1.after (.refresh peerName true true 0) trivial trivial
  have h3 := h2.after (.perform ownLog (.hide 8 none 300) 2 0)
    ⟨by decide, show (ownLog, 2) ∉ Fleet.seen _ by decide +kernel⟩ fun _ _ r hr _ => .inl <|
      (show ∀ r ∈ (Fleet.nodes _ ownLog).db.rows, _ = some r.key by decide +kernel) r hr
  exact ⟨by decide +kernel,
    index_reflects_logs hideTable.format h3 peerName false 0 0 (8, 200)⟩

end Nzbd.History
