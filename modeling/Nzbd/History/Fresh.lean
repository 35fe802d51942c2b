import Nzbd.History.Sync

/-!
# What a replay leaves

Under each key the rows of a replay are what the tables had before, and what all lines
say of the key on top of it (`entry_replayedLines`).  A fresh index, which had nothing
before, is a function of the logs.
-/

namespace Nzbd.History

open List Index

/-- An index that is built from the logs alone. -/
def freshIndex (c : LogCodec) (dir : LogDir) (now : Int) : Index :=
  (replayLogs c (.opened .empty) .unlimited dir false false now).db

namespace Index

def entry (db : Index) (k : Key) : Option HistoryEntry := (db.row k).map (·.entry)

variable {db : Index} {e : HistoryEntry} {k : Key}

theorem entry_updateRow : (db.updateRow e).entry k =
    if e.key = k then (db.entry k).map fun x => x.absorb e else db.entry k := by
  rw [entry, row, updateRow, find?_map, entry, row]
  have hfun : (fun r : Row => decide (r.key = k)) ∘
      (fun r : Row => if r.key = e.key then r.absorb e else r) =
        fun r : Row => decide (r.key = k) := by
    funext r
    simp only [Function.comp_apply]
    split <;> rfl
  rw [hfun]
  cases hfind : db.rows.find? (fun r => r.key = k) with
  | none => simp
  | some r =>
    have hr : r.key = k := by simpa using find?_some hfind
    by_cases he : e.key = k
    · simp [he, hr, Row.absorb]
    · simp [he, hr, Ne.symm he]

theorem entry_insertRow (hnew : db.row e.key = none) : (db.insertRow e).entry k =
    if e.key = k then some e else db.entry k := by
  rw [entry, row, insertRow, find?_append, entry]
  by_cases he : e.key = k
  · subst he
    rw [row] at hnew
    rw [hnew, if_pos rfl]
    simp [Row.key]
  · have hne : ¬Row.key ⟨db.lastId + 1, e, false⟩ = k := he
    simp [he, hne, row]

theorem entry_replayEntry (hk : k ∉ db.tombstones) : (db.replayEntry e).entry k =
    if e.key = k then (db.entry k).merge HistoryEntry.absorb (some e) else db.entry k := by
  cases hrow : db.row e.key with
  | some r =>
    rw [replayEntry_of_row (by simp [hrow]), entry_updateRow]
    by_cases he : e.key = k
    · subst he
      rw [if_pos rfl, if_pos rfl, entry, hrow]
      rfl
    · rw [if_neg he, if_neg he]
  | none =>
    by_cases ht : e.key ∈ db.tombstones
    · have hne : e.key ≠ k := ne_of_mem_of_not_mem ht hk
      rw [replayEntry_of_buried hrow ht, if_neg hne]
    · rw [replayEntry_of_new hrow ht, entry_insertRow hrow]
      by_cases he : e.key = k
      · subst he
        rw [if_pos rfl, if_pos rfl, entry, hrow]
        rfl
      · rw [if_neg he, if_neg he]

/-- **What some entries add to the row of a key.** -/
theorem entry_replay (hk : k ∉ db.tombstones) (es : List HistoryEntry) :
    (merging.replay db es).entry k =
      (db.entry k).merge HistoryEntry.absorb (merging.summary (merging.under k es)) := by
  induction es generalizing db with
  | nil => cases h : db.entry k <;> simp [Merging.replay, Merging.under, Merging.summary, h]
  | cons e es ih =>
    have hk' : k ∉ (db.replayEntry e).tombstones := by
      rw [tombstones_replayEntry]
      exact hk
    change (merging.replay (db.replayEntry e) es).entry k = _
    rw [ih hk', entry_replayEntry hk]
    by_cases he : e.key = k
    · have hunder : merging.under k (e :: es) = e :: merging.under k es :=
        filter_cons_of_pos (decide_eq_true he)
      rw [if_pos he, hunder, Merging.summary_cons]
      cases db.entry k with
      | none => cases merging.summary (merging.under k es) <;> rfl
      | some x => exact (Merging.merge_absorb (M := merging) x e _).symm
    · have hunder : merging.under k (e :: es) = merging.under k es :=
        filter_cons_of_neg fun h => he (of_decide_eq_true h)
      rw [if_neg he, hunder]

theorem entry_bury {ks : List Key} (hk : k ∉ ks) : (db.bury ks).entry k = db.entry k := by
  rw [entry, row, bury, find?_filter, entry, row]
  congr 2
  funext r
  by_cases hr : r.key = k
  · simp [hr, hk]
  · simp [hr]

end Index

variable {c : LogCodec} {db : Index} {k : Key} {floor : Int} {files : List (Text × LogFile)}

/-- What all lines say of a key. -/
def saidByAll (c : LogCodec) (floor : Int) (files : List (Text × LogFile)) (k : Key) :
    Option HistoryEntry :=
  merging.summary (merging.under k ((allEntries c floor files).map Prod.snd))

/-- **The rows of a replay.** -/
theorem entry_replayedLines
    (hk : k ∉ db.tombstones ∪ ((allLines files).filterMap (tombstoneOf c)).toFinset) :
    (replayedLines c db files floor).entry k =
      (db.entry k).merge HistoryEntry.absorb (saidByAll c floor files k) := by
  have hbury : k ∉ (allLines files).filterMap (tombstoneOf c) := fun h =>
    hk (Finset.mem_union_right _ (mem_toFinset.mpr h))
  rw [replayedLines, entry_replay (by exact hk), entry_bury hbury]
  rfl

theorem entry_replayedLines_buried (h : db.Valid)
    (hk : k ∈ db.tombstones ∪ ((allLines files).filterMap (tombstoneOf c)).toFinset) :
    (replayedLines c db files floor).entry k = none := by
  have hv : (replayedLines c db files floor).Valid := Valid.replayedLines h files
  rw [entry, hv.row_eq_none (by rw [tombstones_replayedLines]; exact hk)]
  rfl

/-- A line that gives a key a row. -/
def LogCodec.Says (c : LogCodec) (line : List UInt8) (k : Key) : Prop :=
  c.probe line = false ∧ ∃ e, c.entry line = some e ∧ e.key = k

theorem isSome_saidByAll : (saidByAll c floor files k).isSome ↔
    floor ≤ k.2 ∧ ∃ line ∈ allLines files, c.Says line k := by
  have hmem : (saidByAll c floor files k).isSome ↔
      ∃ e ∈ (allEntries c floor files).map Prod.snd, e.key = k := by
    rw [saidByAll]
    cases hunder : merging.under k ((allEntries c floor files).map Prod.snd) with
    | nil =>
      refine ⟨fun h => (nomatch h), fun ⟨e, he, hkey⟩ => ?_⟩
      exact absurd (Merging.mem_under (M := merging).mpr ⟨he, hkey⟩) (hunder ▸ not_mem_nil)
    | cons e es =>
      refine ⟨fun _ => ⟨e, ?_⟩, fun _ => rfl⟩
      exact Merging.mem_under (M := merging).mp (hunder ▸ mem_cons_self)
  rw [hmem, map_snd_allEntries]
  constructor
  · rintro ⟨e, he, rfl⟩
    obtain ⟨he, hfloor⟩ := mem_filter.mp he
    obtain ⟨line, hline, hread⟩ := mem_filterMap.mp he
    refine ⟨of_decide_eq_true hfloor, line, hline, ?_⟩
    split at hread
    next => nomatch hread
    next hp => exact ⟨by simpa using hp, e, hread, rfl⟩
  · rintro ⟨hfloor, line, hline, hp, e, he, rfl⟩
    refine ⟨e, mem_filter.mpr ⟨mem_filterMap.mpr ⟨line, hline, ?_⟩, ?_⟩, rfl⟩
    · rw [hp, if_neg (by simp)]
      exact he
    · exact decide_eq_true hfloor

/-! ### Fresh indices -/

variable {dir : LogDir} {now : Int}

theorem freshIndex_eq (hnodup : (dir.map (·.1)).Nodup) :
    freshIndex c dir now = replayedLines c .empty (logPaths dir) 0 := by
  have hd : LogsOk (dir.map fun f => (f.1, f.2.ino)) dir :=
    ⟨hnodup, fun f hf => mem_map_of_mem hf⟩
  exact reconcile_db (synced_opened valid_empty) hd

/-- **A fresh index says what the lines say.** -/
theorem entry_freshIndex (hnodup : (dir.map (·.1)).Nodup) : (freshIndex c dir now).entry k =
    if k ∈ (allLines (logPaths dir)).filterMap (tombstoneOf c) then none
    else saidByAll c 0 (logPaths dir) k := by
  rw [freshIndex_eq hnodup]
  split
  next hk =>
    exact entry_replayedLines_buried valid_empty
      (Finset.mem_union_right _ (mem_toFinset.mpr hk))
  next hk =>
    rw [entry_replayedLines]
    · cases saidByAll c 0 (logPaths dir) k <;> rfl
    · rw [Finset.mem_union, mem_toFinset, not_or]
      exact ⟨Finset.notMem_empty _, hk⟩

theorem isSome_entry_freshIndex (hnodup : (dir.map (·.1)).Nodup) :
    ((freshIndex c dir now).entry k).isSome ↔ 0 ≤ k.2 ∧
      (∃ line ∈ allLines (logPaths dir), c.Says line k) ∧
        ∀ line ∈ allLines (logPaths dir), tombstoneOf c line ≠ some k := by
  have hburied : k ∈ (allLines (logPaths dir)).filterMap (tombstoneOf c) ↔
      ∃ line ∈ allLines (logPaths dir), tombstoneOf c line = some k := mem_filterMap
  rw [entry_freshIndex hnodup]
  split
  next hk =>
    refine ⟨fun h => (nomatch h), fun h => ?_⟩
    obtain ⟨line, hline, hk⟩ := hburied.mp hk
    exact absurd hk (h.2.2 line hline)
  next hk =>
    rw [isSome_saidByAll, ← and_assoc]
    refine (and_iff_left fun line hline h => hk ?_).symm
    exact hburied.mpr ⟨line, hline, h⟩

end Nzbd.History
