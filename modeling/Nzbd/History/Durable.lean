import Nzbd.History.Fresh
import Nzbd.History.Format

/-!
# Durable appends

A durable record and a delete write complete lines behind what the log has.  Later
appends and compactions keep a line that is complete (`mem_completeLines_onLog`), so it
is read whenever an index is built from the logs.

But if a crash left a torn line at the end, the first new line is glued to it, and what
comes out is not a line of the key.  `durable_iff` is when the append counts.
-/

namespace Nzbd.History

open List
open State (lf)
open Lines

def Write.onLog (bytes : List UInt8) : Write → List UInt8
  | index _ => bytes
  | append more => bytes ++ more
  | rewrite bytes' => bytes'

/-- The log of a node after an operation. -/
def LocalOp.log (c : LogFormat) (r : Retention) (dir : LogDir) (own : Text) (db : Index)
    (op : LocalOp) : List UInt8 :=
  (op.writes c r dir own db).foldl Write.onLog (logBytes dir own)

/-- A directory in which one log has other bytes. -/
def withLog (dir : LogDir) (own : Text) (bytes : List UInt8) : LogDir :=
  dir.filter (fun f => f.1 ≠ own) ++ [(own, ⟨0, 0, bytes⟩)]

/-- What may happen to the log of a node later on. -/
inductive LaterWrite
  | append (bytes : List UInt8)
  | compact (live : List Key)

def LaterWrite.onLog (c : LogCodec) (bytes : List UInt8) : LaterWrite → List UInt8
  | append more => bytes ++ more
  | compact live => (compacted c live bytes).getD bytes

def Buried (c : LogCodec) (dir : LogDir) (k : Key) : Prop :=
  ∃ line ∈ allLines (logPaths dir), tombstoneOf c line = some k

/-- Some complete line is an entry of a key that a pass takes in. -/
def Told (c : LogCodec) (dir : LogDir) (k : Key) : Prop :=
  0 ≤ k.2 ∧ ∃ line ∈ allLines (logPaths dir), c.Says line k

/-! ### The lines of a directory -/

section Lines

variable {c : LogCodec} {dir : LogDir} {own : Text} {bytes line : List UInt8} {k : Key}

def Elsewhere (dir : LogDir) (own : Text) (line : List UInt8) : Prop :=
  ∃ f ∈ dir, f.1 ≠ own ∧ isHistoryLog f.1 ∧ line ∈ completeLines f.2.bytes

theorem mem_allLines_logPaths : line ∈ allLines (logPaths dir) ↔
    ∃ f ∈ dir, isHistoryLog f.1 ∧ line ∈ completeLines f.2.bytes := by
  simp [allLines, logPaths, mem_insertionSort, and_assoc]

theorem mem_allLines_withLog (hown : isHistoryLog own) :
    line ∈ allLines (logPaths (withLog dir own bytes)) ↔
      Elsewhere dir own line ∨ line ∈ completeLines bytes := by
  rw [mem_allLines_logPaths]
  constructor
  · rintro ⟨f, hf, hlog, hline⟩
    rcases mem_append.mp hf with hf | hf
    · obtain ⟨hf, hne⟩ := mem_filter.mp hf
      exact .inl ⟨f, hf, of_decide_eq_true hne, hlog, hline⟩
    · obtain rfl := mem_singleton.mp hf
      exact .inr hline
  · rintro (⟨f, hf, hne, hlog, hline⟩ | hline)
    · exact ⟨f, mem_append_left _ (mem_filter.mpr ⟨hf, decide_eq_true hne⟩), hlog, hline⟩
    · exact ⟨_, mem_append_right _ (mem_singleton_self _), hown, hline⟩

theorem mem_allLines (hnodup : (dir.map (·.1)).Nodup) (hown : isHistoryLog own) :
    line ∈ allLines (logPaths dir) ↔
      Elsewhere dir own line ∨ line ∈ completeLines (logBytes dir own) := by
  rw [mem_allLines_logPaths]
  cases hfind : dir.find? fun f => f.1 = own with
  | none =>
    have hnone : ∀ f ∈ dir, f.1 ≠ own := by simpa using hfind
    rw [logBytes, hfind]
    refine ⟨fun ⟨f, hf, hlog, hline⟩ => .inl ⟨f, hf, hnone f hf, hlog, hline⟩, ?_⟩
    rintro (⟨f, hf, -, hlog, hline⟩ | hline)
    · exact ⟨f, hf, hlog, hline⟩
    · simp [completeLines] at hline
  | some g =>
    have hg : g.1 = own := by simpa using find?_some hfind
    have hmem := mem_of_find?_eq_some hfind
    rw [logBytes, hfind]
    constructor
    · rintro ⟨f, hf, hlog, hline⟩
      by_cases hne : f.1 = own
      · obtain rfl := inj_on_of_nodup_map hnodup hf hmem (hne.trans hg.symm)
        exact .inr hline
      · exact .inl ⟨f, hf, hne, hlog, hline⟩
    · rintro (⟨f, hf, -, hlog, hline⟩ | hline)
      · exact ⟨f, hf, hlog, hline⟩
      · exact ⟨g, hmem, hg ▸ hown, hline⟩

theorem nodup_withLog (hnodup : (dir.map (·.1)).Nodup) :
    ((withLog dir own bytes).map (·.1)).Nodup := by
  rw [withLog, map_append]
  refine nodup_append.mpr ⟨(filter_sublist.map _).nodup hnodup, by simp, ?_⟩
  rintro a ha b hb rfl
  obtain ⟨f, hf, rfl⟩ := mem_map.mp ha
  have hne := of_decide_eq_true (mem_filter.mp hf).2
  exact hne (by simpa using hb)

theorem buried_withLog (hown : isHistoryLog own) : Buried c (withLog dir own bytes) k ↔
    ∃ line, (Elsewhere dir own line ∨ line ∈ completeLines bytes) ∧
      tombstoneOf c line = some k := by
  simp only [Buried, mem_allLines_withLog hown]

theorem told_withLog (hown : isHistoryLog own) : Told c (withLog dir own bytes) k ↔
    0 ≤ k.2 ∧ ∃ line, (Elsewhere dir own line ∨ line ∈ completeLines bytes) ∧ c.Says line k := by
  simp only [Told, mem_allLines_withLog hown]

theorem freshIndex_row_or_tombstone (hnodup : (dir.map (·.1)).Nodup) (now : Int) :
    ((freshIndex c dir now).entry k).isSome ∨ k ∈ (freshIndex c dir now).tombstones ↔
      Told c dir k ∨ Buried c dir k := by
  have htombs : k ∈ (freshIndex c dir now).tombstones ↔ Buried c dir k := by
    rw [freshIndex_eq hnodup, tombstones_replayedLines]
    simp [Index.empty, Buried]
  rw [htombs, isSome_entry_freshIndex hnodup, ← and_assoc]
  constructor
  · rintro (⟨h, -⟩ | h)
    · exact .inl h
    · exact .inr h
  · rintro (h | h)
    · by_cases hb : Buried c dir k
      · exact .inr hb
      · exact .inl ⟨h, fun line hline hk => hb ⟨line, hline, hk⟩⟩
    · exact .inr h

theorem entry_freshIndex_eq_none (hnodup : (dir.map (·.1)).Nodup) (now : Int) :
    (freshIndex c dir now).entry k = none ↔ (Told c dir k → Buried c dir k) := by
  rw [← Option.not_isSome_iff_eq_none, isSome_entry_freshIndex hnodup, ← and_assoc, not_and]
  refine imp_congr_right fun _ => ?_
  simp [Buried]

end Lines

/-! ### What stays in a log -/

section Stay

variable {c : LogCodec} {live : List Key} {bytes line : List UInt8} {k : Key}

def Lasting (c : LogCodec) (live : List Key) (line : List UInt8) : Prop :=
  line ≠ [] ∧ dropped c live line = false

theorem completeLines_subset_splitLines (h : line ∈ completeLines bytes) :
    line ∈ splitLines bytes := by
  rw [splitLines]
  split
  · exact h
  · exact dropLast_subset _ h

theorem lf_notMem_splitLines (h : line ∈ splitLines bytes) : lf ∉ line := by
  rw [splitLines] at h
  split at h
  · exact not_mem_complete h
  · exact not_mem_of_mem_splitOn h

theorem mem_completeLines_append (h : line ∈ completeLines bytes) (more : List UInt8) :
    line ∈ completeLines (bytes ++ more) := by
  change line ∈ complete lf (bytes ++ more)
  rw [complete_append]
  exact mem_append_left _ h

theorem mem_completeLines_compacted (h : line ∈ completeLines bytes) (hline : Lasting c live line) :
    line ∈ completeLines ((compacted c live bytes).getD bytes) := by
  rw [compacted]
  split
  · rw [Option.getD_some]
    change line ∈ complete lf (joined lf _)
    rw [complete_joined fun l hl =>
      lf_notMem_splitLines (mem_of_mem_filter (mem_of_mem_filter hl))]
    refine mem_filter.mpr ⟨mem_filter.mpr ⟨?_, decide_eq_true hline.1⟩, ?_⟩
    · exact completeLines_subset_splitLines h
    · simp [hline.2]
  · exact h

/-- **A complete line stays.** -/
theorem mem_completeLines_onLog {w : LaterWrite} (h : line ∈ completeLines bytes)
    (hline : ∀ live, w = .compact live → Lasting c live line) :
    line ∈ completeLines (w.onLog c bytes) := by
  cases w with
  | append more => exact mem_completeLines_append h more
  | compact live => exact mem_completeLines_compacted h (hline live rfl)

theorem mem_completeLines_foldl {later : List LaterWrite} (h : line ∈ completeLines bytes)
    (hline : ∀ live, .compact live ∈ later → Lasting c live line) :
    line ∈ completeLines (later.foldl (LaterWrite.onLog c) bytes) := by
  induction later generalizing bytes with
  | nil => exact h
  | cons w later ih =>
    refine ih (mem_completeLines_onLog h fun live hw => ?_) fun live hmem => ?_
    · exact hline live (hw ▸ mem_cons_self)
    · exact hline live (mem_cons_of_mem _ hmem)

end Stay

section Kept

variable (c : LogFormat) {live : List Key} {line : List UInt8} {k : Key}

theorem lasting_of_tombstone (h : tombstoneOf c.toLogCodec line = some k) :
    Lasting c.toLogCodec live line := by
  have htomb : c.tombstone line = some k := by
    rw [tombstoneOf] at h
    split at h
    · exact h
    · cases h
  refine ⟨?_, by simp [dropped, entryOf, htomb]⟩
  rintro rfl
  exact absurd (c.tombstone_nil.symm.trans htomb) (by simp)

theorem lasting_of_row (h : c.Says line k) (hk : k ∈ live) : Lasting c.toLogCodec live line := by
  obtain ⟨-, e, he, rfl⟩ := h
  refine ⟨?_, ?_⟩
  · rintro rfl
    exact absurd (c.entry_nil.symm.trans he) (by simp)
  · rw [dropped, entryOf]
    split
    · rfl
    · simpa [he] using hk

theorem says_entryLine (e : HistoryEntry) : c.Says (c.entryLine e) e.key :=
  ⟨c.probe_entryLine e, e, c.entry_entryLine e, rfl⟩

theorem tombstoneOf_tombstoneLine (k : Key) :
    tombstoneOf c.toLogCodec (c.tombstoneLine k) = some k := by
  rw [tombstoneOf, if_pos (c.probe_tombstoneLine k), c.tombstone_tombstoneLine]

theorem tombstoneOf_entryLine (e : HistoryEntry) :
    tombstoneOf c.toLogCodec (c.entryLine e) = none := by
  rw [tombstoneOf, if_neg (by simp [c.probe_entryLine])]

end Kept

/-! ### What is appended -/

section Append

/-- What a line becomes behind a log. -/
def glued (bytes line : List UInt8) : List UInt8 := torn lf bytes ++ line

variable {c : LogFormat} {r : Retention} {dir : LogDir} {own : Text} {db : Index}

/-- A row with this key is in the log already, or so it says. -/
def Index.synced (db : Index) (k : Key) : Bool := (db.row k).any (·.portableSynced)

theorem line_eq (e : HistoryEntry) : LocalOp.line c e = joined lf [c.entryLine e] := by
  rw [joined_cons, joined_nil]
  rfl

theorem completeLines_append_line (bytes : List UInt8) (e : HistoryEntry) :
    completeLines (bytes ++ LocalOp.line c e) =
      completeLines bytes ++ [glued bytes (c.entryLine e)] := by
  rw [line_eq]
  exact complete_append_joined bytes (by simp [c.lf_notMem_entryLine])

theorem lf_notMem_tombstoneLines (ks : List Key) : ∀ l ∈ ks.map c.tombstoneLine, lf ∉ l := by
  intro l hl
  obtain ⟨k, -, rfl⟩ := mem_map.mp hl
  exact c.lf_notMem_tombstoneLine k

theorem completeLines_recordSeqDurable (e : HistoryEntry) :
    completeLines (LocalOp.log c r dir own db (.recordSeqDurable e)) =
      completeLines (logBytes dir own) ++
        if db.synced e.key then []
        else [glued (logBytes dir own) (c.entryLine (LocalOp.canonical c dir e))] := by
  rw [LocalOp.log, LocalOp.writes, LocalOp.key_canonical, Index.synced]
  split
  · exact (append_nil _).symm
  · exact completeLines_append_line _ _

theorem log_delete {job : JobId} {k : Key} {ks : List Key} (hks : db.keysOf job = k :: ks) :
    LocalOp.log c r dir own db (.delete job) =
      logBytes dir own ++ joined lf ((k :: ks).map c.tombstoneLine) := by
  rw [LocalOp.log, LocalOp.writes, hks, if_neg (cons_ne_nil _ _)]
  rfl

theorem completeLines_delete {job : JobId} {k : Key} {ks : List Key} (hks : db.keysOf job = k :: ks) :
    completeLines (LocalOp.log c r dir own db (.delete job)) =
      completeLines (logBytes dir own) ++
        glued (logBytes dir own) (c.tombstoneLine k) :: ks.map c.tombstoneLine := by
  rw [log_delete hks]
  exact complete_append_joined _ (lf_notMem_tombstoneLines (k :: ks))

end Append

/-! ### When an append counts -/

section Durable

variable (c : LogFormat) (r : Retention) (dir : LogDir) (own : Text) (db : Index)

/-- An index that is built from the logs after an operation and later writes. -/
def rebuilt (op : LocalOp) (later : List LaterWrite) (now : Int) : Index :=
  freshIndex c.toLogCodec
    (withLog dir own (later.foldl (LaterWrite.onLog c.toLogCodec) (op.log c r dir own db))) now

/-- The logs have a line of the key, or the new line becomes one. -/
def Recordable (e : HistoryEntry) : Prop :=
  Told c.toLogCodec dir e.key ∨ Buried c.toLogCodec dir e.key ∨
    db.synced e.key = false ∧
      let line := glued (logBytes dir own) (c.entryLine (LocalOp.canonical c dir e))
      0 ≤ e.key.2 ∧ c.Says line e.key ∨ tombstoneOf c.toLogCodec line = some e.key

/-- Each key has a tombstone in the logs, or the new line becomes one, or it is not the
first new line. -/
def Deletable (job : JobId) : Prop :=
  ∀ k ∈ db.keysOf job, 0 ≤ k.2 → Buried c.toLogCodec dir k ∨ k ∈ (db.keysOf job).tail ∨
    tombstoneOf c.toLogCodec (glued (logBytes dir own) (c.tombstoneLine k)) = some k

variable {c r dir own db} {e : HistoryEntry} {job : JobId}

theorem recordable_of_whole (hwhole : torn lf (logBytes dir own) = [])
    (hsynced : db.synced e.key = false) (hfloor : 0 ≤ e.key.2) : Recordable c dir own db e := by
  refine .inr (.inr ⟨hsynced, .inl ⟨hfloor, ?_⟩⟩)
  rw [glued, hwhole, nil_append, ← LocalOp.key_canonical (c := c) dir e]
  exact says_entryLine c _

theorem deletable_of_whole (hwhole : torn lf (logBytes dir own) = []) :
    Deletable c dir own db job := by
  intro k _ _
  refine .inr (.inr ?_)
  rw [glued, hwhole, nil_append]
  exact tombstoneOf_tombstoneLine c k

theorem recordable_iff (hnodup : (dir.map (·.1)).Nodup) (hown : isHistoryLog own) :
    Recordable c dir own db e ↔
      Told c.toLogCodec (withLog dir own (LocalOp.log c r dir own db (.recordSeqDurable e))) e.key ∨
      Buried c.toLogCodec (withLog dir own (LocalOp.log c r dir own db (.recordSeqDurable e)))
        e.key := by
  rw [told_withLog hown, buried_withLog hown, completeLines_recordSeqDurable, Recordable, Told,
    Buried]
  simp only [mem_allLines hnodup hown]
  cases db.synced e.key with
  | true => simp
  | false =>
    simp only [Bool.false_eq_true, if_false, mem_append, mem_singleton, true_and]
    constructor
    · rintro (⟨h0, l, hl, hspoken⟩ | ⟨l, hl, hbury⟩ | ⟨h0, hspoken⟩ | hbury)
      · exact .inl ⟨h0, l, hl.imp_right .inl, hspoken⟩
      · exact .inr ⟨l, hl.imp_right .inl, hbury⟩
      · exact .inl ⟨h0, _, .inr (.inr rfl), hspoken⟩
      · exact .inr ⟨_, .inr (.inr rfl), hbury⟩
    · rintro (⟨h0, l, hl | hl | rfl, hspoken⟩ | ⟨l, hl | hl | rfl, hbury⟩)
      · exact .inl ⟨h0, l, .inl hl, hspoken⟩
      · exact .inl ⟨h0, l, .inr hl, hspoken⟩
      · exact .inr (.inr (.inl ⟨h0, hspoken⟩))
      · exact .inr (.inl ⟨l, .inl hl, hbury⟩)
      · exact .inr (.inl ⟨l, .inr hl, hbury⟩)
      · exact .inr (.inr (.inr hbury))

theorem buried_later (hown : isHistoryLog own) {bytes : List UInt8} {k : Key}
    (h : Buried c.toLogCodec (withLog dir own bytes) k) (later : List LaterWrite) :
    Buried c.toLogCodec
      (withLog dir own (later.foldl (LaterWrite.onLog c.toLogCodec) bytes)) k := by
  rw [buried_withLog hown] at h ⊢
  obtain ⟨l, hl, hbury⟩ := h
  refine ⟨l, hl.imp_right fun hl => mem_completeLines_foldl hl fun live _ => ?_, hbury⟩
  exact lasting_of_tombstone c hbury

theorem told_later (hown : isHistoryLog own) {bytes : List UInt8} {k : Key}
    {later : List LaterWrite}
    (h : Told c.toLogCodec (withLog dir own bytes) k ∨ Buried c.toLogCodec (withLog dir own bytes) k)
    (hlive : ∀ live, .compact live ∈ later → k ∈ live) :
    let dir' := withLog dir own (later.foldl (LaterWrite.onLog c.toLogCodec) bytes)
    Told c.toLogCodec dir' k ∨ Buried c.toLogCodec dir' k := by
  dsimp only
  rcases h with h | h
  · rw [told_withLog hown] at h
    obtain ⟨h0, l, hl, hspoken⟩ := h
    refine .inl ((told_withLog hown).mpr ⟨h0, l, ?_, hspoken⟩)
    refine hl.imp_right fun hl => mem_completeLines_foldl hl fun live hmem => ?_
    exact lasting_of_row c hspoken (hlive live hmem)
  · exact .inr (buried_later hown h later)

theorem buried_delete (hnodup : (dir.map (·.1)).Nodup) (hown : isHistoryLog own) {k : Key}
    (hk : k ∈ db.keysOf job)
    (h : Buried c.toLogCodec dir k ∨ k ∈ (db.keysOf job).tail ∨
      tombstoneOf c.toLogCodec (glued (logBytes dir own) (c.tombstoneLine k)) = some k) :
    Buried c.toLogCodec (withLog dir own (LocalOp.log c r dir own db (.delete job))) k := by
  rw [buried_withLog hown]
  cases hks : db.keysOf job with
  | nil => exact absurd (hks ▸ hk) not_mem_nil
  | cons k₀ ks =>
    rw [completeLines_delete hks]
    simp only [mem_append, mem_cons]
    have htail : k ∈ ks → c.tombstoneLine k ∈ ks.map c.tombstoneLine := mem_map_of_mem
    rcases h with ⟨l, hl, hbury⟩ | h | h
    · exact ⟨l, ((mem_allLines hnodup hown).mp hl).imp_right .inl, hbury⟩
    · rw [hks] at h
      exact ⟨_, .inr (.inr (.inr (htail h))), tombstoneOf_tombstoneLine c k⟩
    · rcases mem_cons.mp (hks ▸ hk) with rfl | hk
      · exact ⟨_, .inr (.inr (.inl rfl)), h⟩
      · exact ⟨_, .inr (.inr (.inr (htail hk))), tombstoneOf_tombstoneLine c k⟩

theorem not_buried_delete (hnodup : (dir.map (·.1)).Nodup) (hown : isHistoryLog own) {k : Key}
    (hk : k ∈ db.keysOf job) (h0 : 0 ≤ k.2)
    (h : ∀ later now, (rebuilt c r dir own db (.delete job) later now).entry k = none) :
    Buried c.toLogCodec dir k ∨ k ∈ (db.keysOf job).tail ∨
      tombstoneOf c.toLogCodec (glued (logBytes dir own) (c.tombstoneLine k)) = some k := by
  obtain ⟨row, -, rfl⟩ := mem_map.mp hk
  cases hks : db.keysOf job with
  | nil => exact absurd (hks ▸ hk) not_mem_nil
  | cons k₀ ks =>
    -- the row is recorded once more
    have hrecord := h [.append (LocalOp.line c row.entry)] 0
    have hwhole : torn lf (LocalOp.log c r dir own db (.delete job)) = [] := by
      rw [log_delete hks]
      exact torn_append_joined _ (lf_notMem_tombstoneLines (k₀ :: ks))
    have hlines : completeLines (LocalOp.log c r dir own db (.delete job) ++
        LocalOp.line c row.entry) = completeLines (logBytes dir own) ++
          glued (logBytes dir own) (c.tombstoneLine k₀) :: ks.map c.tombstoneLine ++
            [c.entryLine row.entry] := by
      rw [completeLines_append_line, glued, hwhole, nil_append, completeLines_delete hks]
    rw [rebuilt, entry_freshIndex_eq_none (nodup_withLog hnodup), told_withLog hown,
      buried_withLog hown] at hrecord
    simp only [foldl_cons, foldl_nil, LaterWrite.onLog, hlines] at hrecord
    obtain ⟨l, hl, hbury⟩ := hrecord ⟨h0, c.entryLine row.entry, .inr
      (mem_append_right _ (mem_singleton_self _)), says_entryLine c row.entry⟩
    rcases hl with hl | hl
    · exact .inl ⟨l, (mem_allLines hnodup hown).mpr (.inl hl), hbury⟩
    · rcases mem_append.mp hl with hl | hl
      · rcases mem_append.mp hl with hl | hl
        · exact .inl ⟨l, (mem_allLines hnodup hown).mpr (.inr hl), hbury⟩
        · rcases mem_cons.mp hl with rfl | hl
          · rcases mem_cons.mp (hks ▸ hk) with he | hk
            · exact .inr (.inr (he ▸ hbury))
            · exact .inr (.inl hk)
          · obtain ⟨k, hk, rfl⟩ := mem_map.mp hl
            rw [tombstoneOf_tombstoneLine] at hbury
            exact .inr (.inl (Option.some.inj hbury ▸ hk))
      · rw [mem_singleton.mp hl, tombstoneOf_entryLine] at hbury
        nomatch hbury

/-- **A durable append counts** if the log ends with a whole line, or the torn line does
not spoil the new one, or the logs say it already, and in no other case. -/
theorem durable_iff (c : LogFormat) (r : Retention) (dir : LogDir) (own : Text)
    (hnodup : (dir.map (·.1)).Nodup) (hown : isHistoryLog own) (db : Index) (e : HistoryEntry)
    (job : JobId) :
    ((∀ later now, (∀ live, .compact live ∈ later → e.key ∈ live) →
        let db' := rebuilt c r dir own db (.recordSeqDurable e) later now
        (db'.entry e.key).isSome ∨ e.key ∈ db'.tombstones) ↔ Recordable c dir own db e) ∧
    ((∀ later now, ∀ k ∈ db.keysOf job,
        (rebuilt c r dir own db (.delete job) later now).entry k = none) ↔
      Deletable c dir own db job) := by
  constructor
  · rw [recordable_iff (r := r) hnodup hown]
    constructor
    · intro h
      have h := h [] 0 fun live hmem => absurd hmem not_mem_nil
      rwa [rebuilt, freshIndex_row_or_tombstone (nodup_withLog hnodup)] at h
    · intro h later now hlive
      dsimp only
      rw [rebuilt, freshIndex_row_or_tombstone (nodup_withLog hnodup)]
      exact told_later hown h hlive
  · constructor
    · intro h k hk h0
      exact not_buried_delete hnodup hown hk h0 fun later now => h later now k hk
    · intro h later now k hk
      rw [rebuilt, entry_freshIndex_eq_none (nodup_withLog hnodup)]
      intro htold
      have hbury := buried_delete (r := r) hnodup hown hk (h k hk htold.1)
      exact buried_later hown hbury later

end Durable

/-! ### A torn line -/

def tornName : Text := "history.jsonl".toList

def tornLog : LogDir := [(tornName, ⟨0, 0, [0x7b]⟩)]

def tornBehind : LogDir := [(tornName, ⟨0, 0, finishedLine ++ [lf, 0x7b]⟩)]

def recordedIndex : Index := ⟨[⟨1, finishedEntry, true⟩], 1, ∅, none⟩

def wholeLog : LogDir := [(tornName, ⟨0, 0, finishedLine ++ [lf]⟩)]

/-- Behind a whole line both count. -/
theorem durable_behind_whole :
    (∀ later now, (∀ live, .compact live ∈ later → tiedEntry.key ∈ live) →
      let db' := rebuilt episodeTable.format .unlimited wholeLog tornName recordedIndex
        (.recordSeqDurable tiedEntry) later now
      (db'.entry tiedEntry.key).isSome ∨ tiedEntry.key ∈ db'.tombstones) ∧
    ∀ later now, ∀ k ∈ recordedIndex.keysOf 7,
      (rebuilt episodeTable.format .unlimited wholeLog tornName recordedIndex (.delete 7)
        later now).entry k = none := by
  have hiff := durable_iff episodeTable.format .unlimited wholeLog tornName
    (by decide) (by decide) recordedIndex tiedEntry 7
  have hwhole : torn lf (logBytes wholeLog tornName) = [] := by decide
  exact ⟨hiff.1.mpr (recordable_of_whole hwhole (by decide) (by decide)),
    hiff.2.mpr (deletable_of_whole hwhole)⟩

/-- What is recorded or deleted behind a torn line is lost. -/
theorem glued_lines_lost :
    (rebuilt episodeTable.format .unlimited tornLog tornName .empty
      (.recordSeqDurable finishedEntry) [] 0).entry (7, 100) = none ∧
    (7, 100) ∉ (rebuilt episodeTable.format .unlimited tornLog tornName .empty
      (.recordSeqDurable finishedEntry) [] 0).tombstones ∧
    (7, 100) ∈ recordedIndex.keysOf 7 ∧
    (rebuilt episodeTable.format .unlimited tornBehind tornName recordedIndex
      (.delete 7) [] 0).entry (7, 100) = some finishedEntry := by
  refine ⟨?_, ?_, ?_, ?_⟩
  · decide +kernel
  · decide +kernel
  · decide
  · decide +kernel

end Nzbd.History
