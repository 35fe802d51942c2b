import Mathlib.Data.Finset.Lattice.Lemmas
import Nzbd.Lib.KeyedLog
import Nzbd.Types

/-!
# The history index

A finished job is an entry of the history, under its id and the time it was
completed at.  The index has one row for each such key.  What the first line of a
key says of the job stays (`Payload`); of the rest the last value counts, or the
last one that is there (`HistoryEntry.absorb`).

A row has a cursor value, its id, that is never given out again.  A key with a
tombstone has no row and gets none.

`merging` is the index as a state that takes entries.
-/

namespace Nzbd.History

open List

abbrev Key := JobId × Int

/-- What is said once of a completed job. -/
structure Payload where
  name : Text
  category : Option Text
  finalDir : Option Text
  status : Text
  size : Nat
  health : Nat
  params : List (Text × Text)
  dupeKey : Text
  dupeScore : Int
  stages : List StageSpan
  deriving DecidableEq

structure HistoryEntry where
  job : JobId
  completedAtUnix : Int
  payload : Payload
  hidden : Bool
  removedAtUnix : Option Int
  pickedUpBy : Option Text
  /-- The job record, serialized. -/
  record : Option Text
  deriving DecidableEq

namespace HistoryEntry

def key (e : HistoryEntry) : Key := (e.job, e.completedAtUnix)

/-- A newer line of the same key: the last value of `hidden`, and of the rest the
last one that is there. -/
def absorb (e newer : HistoryEntry) : HistoryEntry := { e with
  hidden := newer.hidden
  removedAtUnix := newer.removedAtUnix.or e.removedAtUnix
  pickedUpBy := newer.pickedUpBy.or e.pickedUpBy
  record := newer.record.or e.record }

@[simp] theorem key_absorb (e newer : HistoryEntry) : (e.absorb newer).key = e.key := rfl

theorem absorb_assoc (a b c : HistoryEntry) : (a.absorb b).absorb c = a.absorb (b.absorb c) := by
  simp [absorb, Option.or_assoc]

theorem absorb_self (e : HistoryEntry) : e.absorb e = e := by
  simp [absorb]

end HistoryEntry

structure Row where
  id : Nat
  entry : HistoryEntry
  portableSynced : Bool
  deriving DecidableEq

namespace Row

def key (r : Row) : Key := r.entry.key

def absorb (r : Row) (e : HistoryEntry) : Row := { r with entry := r.entry.absorb e }

@[simp] theorem key_absorb (r : Row) (e : HistoryEntry) : (r.absorb e).key = r.key := rfl

end Row

/-- The tables, and the last id that was given out. -/
structure Index where
  rows : List Row
  lastId : Nat
  tombstones : Finset Key
  retentionFloor : Option Int

namespace Index

def empty : Index := ⟨[], 0, ∅, none⟩

def row (db : Index) (k : Key) : Option Row := db.rows.find? fun r => r.key = k

/-- Put a key in, under a new id. -/
def insertRow (db : Index) (e : HistoryEntry) : Index := { db with
  rows := db.rows ++ [⟨db.lastId + 1, e, false⟩]
  lastId := db.lastId + 1 }

def updateRow (db : Index) (e : HistoryEntry) : Index := { db with
  rows := db.rows.map fun r => if r.key = e.key then r.absorb e else r }

/-- Replay one line of a log. -/
def replayEntry (db : Index) (e : HistoryEntry) : Index :=
  if (db.row e.key).isSome then db.updateRow e
  else if e.key ∈ db.tombstones then db
  else db.insertRow e

def replayTombstone (db : Index) (k : Key) : Index :=
  if k ∈ db.tombstones then db
  else { db with
    tombstones := insert k db.tombstones
    rows := db.rows.filter fun r => r.key ≠ k }

structure Valid (db : Index) : Prop where
  nodup : (db.rows.map Row.key).Nodup
  buried : ∀ r ∈ db.rows, r.key ∉ db.tombstones

/-- The key has a row, or will never have one. -/
def Known (db : Index) (k : Key) : Prop := (db.row k).isSome ∨ k ∈ db.tombstones

variable {db : Index} {e : HistoryEntry} {k : Key}

theorem row_eq_none : db.row k = none ↔ ∀ r ∈ db.rows, r.key ≠ k := by
  simp [row, find?_eq_none]

theorem isSome_row : (db.row k).isSome ↔ ∃ r ∈ db.rows, r.key = k := by
  simp [row, find?_isSome]

theorem keys_updateRow : (db.updateRow e).rows.map Row.key = db.rows.map Row.key := by
  rw [updateRow, map_map]
  refine map_congr_left fun r _ => ?_
  simp only [Function.comp_apply]
  split <;> rfl

theorem isSome_row_congr {db db' : Index} (h : db.rows.map Row.key = db'.rows.map Row.key) :
    (db.row k).isSome = (db'.row k).isSome := by
  rw [Bool.eq_iff_iff, isSome_row, isSome_row]
  have hmem : ∀ d : Index, (∃ r ∈ d.rows, r.key = k) ↔ k ∈ d.rows.map Row.key := fun d => by
    rw [mem_map]
  rw [hmem, hmem, h]

theorem isSome_row_updateRow : ((db.updateRow e).row k).isSome = (db.row k).isSome :=
  isSome_row_congr keys_updateRow

theorem isSome_row_insertRow :
    ((db.insertRow e).row k).isSome ↔ (db.row k).isSome ∨ e.key = k := by
  rw [isSome_row, isSome_row]
  simp [insertRow, or_and_right, exists_or, Row.key]

theorem tombstones_replayEntry (db : Index) (e : HistoryEntry) :
    (db.replayEntry e).tombstones = db.tombstones := by
  rw [replayEntry]
  repeat' split
  all_goals rfl

theorem replayEntry_of_row (h : (db.row e.key).isSome) : db.replayEntry e = db.updateRow e :=
  if_pos h

theorem replayEntry_of_buried (h : db.row e.key = none) (ht : e.key ∈ db.tombstones) :
    db.replayEntry e = db := by
  rw [replayEntry, if_neg (by simp [h]), if_pos ht]

theorem replayEntry_of_new (h : db.row e.key = none) (ht : e.key ∉ db.tombstones) :
    db.replayEntry e = db.insertRow e := by
  rw [replayEntry, if_neg (by simp [h]), if_neg ht]

theorem isSome_row_replayEntry (h : (db.row k).isSome) :
    ((db.replayEntry e).row k).isSome := by
  rw [replayEntry]
  repeat' split
  · exact isSome_row_updateRow.trans h
  · exact h
  · exact isSome_row_insertRow.mpr (.inl h)

theorem isSome_row_replayEntry_of_ne (h : e.key ≠ k) :
    ((db.replayEntry e).row k).isSome = (db.row k).isSome := by
  rw [replayEntry]
  repeat' split
  · exact isSome_row_updateRow
  · rfl
  · rw [Bool.eq_iff_iff, isSome_row_insertRow]
    exact or_iff_left h

theorem updateRow_updateRow {e' : HistoryEntry} (h : e'.key = e.key) :
    (db.updateRow e).updateRow e' = db.updateRow (e.absorb e') := by
  simp only [updateRow, map_map, h]
  congr 1
  refine map_congr_left fun r _ => ?_
  simp only [Function.comp_apply]
  by_cases hr : r.key = e.key
  · rw [if_pos hr, if_pos (show (r.absorb e).key = e.key from hr),
      if_pos (show r.key = (e.absorb e').key from hr)]
    simp only [Row.absorb, HistoryEntry.absorb_assoc]
  · rw [if_neg hr, if_neg hr, if_neg (show r.key ≠ (e.absorb e').key from hr)]

theorem updateRow_comm {e' : HistoryEntry} (h : e.key ≠ e'.key) :
    (db.updateRow e).updateRow e' = (db.updateRow e').updateRow e := by
  simp only [updateRow, map_map]
  congr 1
  refine map_congr_left fun r _ => ?_
  simp only [Function.comp_apply]
  by_cases hr : r.key = e.key
  · simp [hr, h]
  · by_cases hr' : r.key = e'.key
    · simp [hr', h.symm]
    · simp [hr, hr']

theorem updateRow_insertRow {e' : HistoryEntry} (h : e.key ≠ e'.key) :
    (db.insertRow e).updateRow e' = (db.updateRow e').insertRow e := by
  simp [updateRow, insertRow, Row.key, h]

theorem insertRow_updateRow {e' : HistoryEntry} (hnew : db.row e.key = none)
    (h : e'.key = e.key) : (db.insertRow e).updateRow e' = db.insertRow (e.absorb e') := by
  have hold : db.rows.map (fun r => if r.key = e.key then r.absorb e' else r) = db.rows := by
    refine (map_congr_left fun r hr => ?_).trans (map_id _)
    rw [if_neg (row_eq_none.mp hnew r hr)]
    rfl
  simp only [updateRow, insertRow, h, map_append, hold]
  simp [Row.key, Row.absorb]

end Index

open Index

/-- **The index takes entries.** -/
def merging : Merging Key HistoryEntry Index where
  key := HistoryEntry.key
  absorb := HistoryEntry.absorb
  apply := replayEntry
  Known := Known
  key_absorb := HistoryEntry.key_absorb
  absorb_assoc := HistoryEntry.absorb_assoc
  absorb_self := HistoryEntry.absorb_self
  apply_apply := by
    intro db a b h
    cases hrow : db.row a.key with
    | some r =>
      have ha : (db.row a.key).isSome := by simp [hrow]
      rw [replayEntry_of_row ha, replayEntry_of_row (h ▸ isSome_row_updateRow.trans ha),
        updateRow_updateRow h.symm, replayEntry_of_row (e := a.absorb b) ha]
    | none =>
      by_cases ht : a.key ∈ db.tombstones
      · rw [replayEntry_of_buried hrow ht, replayEntry_of_buried (h ▸ hrow) (h ▸ ht),
          replayEntry_of_buried (e := a.absorb b) hrow ht]
      · have hnew : ((db.insertRow a).row b.key).isSome := isSome_row_insertRow.mpr (.inr h)
        rw [replayEntry_of_new hrow ht, replayEntry_of_row hnew, insertRow_updateRow hrow h.symm,
          replayEntry_of_new (e := a.absorb b) hrow ht]
  known_apply := by
    intro db a
    rw [replayEntry]
    split
    next h => exact .inl (isSome_row_updateRow.trans h)
    next h =>
      split
      next ht => exact .inr ht
      next => exact .inl (isSome_row_insertRow.mpr (.inr rfl))
  known_mono := by
    intro db a k h
    rcases h with h | h
    · exact .inl (isSome_row_replayEntry h)
    · right
      rw [tombstones_replayEntry]
      exact h
  apply_comm := by
    intro db a b hne hk
    cases hb : db.row b.key with
    | some r =>
      -- the other key has its row already
      have hb : (db.row b.key).isSome := by simp [hb]
      rw [replayEntry_of_row (isSome_row_replayEntry hb), replayEntry_of_row hb]
      cases ha : db.row a.key with
      | some r =>
        have ha : (db.row a.key).isSome := by simp [ha]
        rw [replayEntry_of_row ha, replayEntry_of_row (isSome_row_updateRow.trans ha),
          updateRow_comm hne]
      | none =>
        have ha' : (db.updateRow b).row a.key = none := by
          rw [← Option.not_isSome_iff_eq_none, isSome_row_updateRow, ha]
          simp
        by_cases ht : a.key ∈ db.tombstones
        · rw [replayEntry_of_buried ha ht, replayEntry_of_buried ha' ht]
        · rw [replayEntry_of_new ha ht, replayEntry_of_new ha' ht, updateRow_insertRow hne]
    | none =>
      have ht : b.key ∈ db.tombstones := hk.resolve_left (by simp [hb])
      have hb' : (db.replayEntry a).row b.key = none := by
        rw [← Option.not_isSome_iff_eq_none, isSome_row_replayEntry_of_ne hne, hb]
        simp
      rw [replayEntry_of_buried hb ht,
        replayEntry_of_buried hb' (by rwa [tombstones_replayEntry])]

/-! ### Valid indices -/

namespace Index

variable {db : Index} {e : HistoryEntry} {k : Key}

theorem valid_empty : empty.Valid := ⟨nodup_nil, fun _ h => absurd h not_mem_nil⟩

theorem Valid.row_eq_none (h : db.Valid) (hk : k ∈ db.tombstones) : db.row k = none :=
  Index.row_eq_none.mpr fun r hr he => h.buried r hr (he ▸ hk)

theorem Valid.updateRow (h : db.Valid) : (db.updateRow e).Valid := by
  refine ⟨keys_updateRow.symm ▸ h.nodup, fun r hr => ?_⟩
  obtain ⟨r₀, hr₀, rfl⟩ := mem_map.mp hr
  split
  · exact h.buried r₀ hr₀
  · exact h.buried r₀ hr₀

theorem Valid.insertRow (h : db.Valid) (hnew : db.row e.key = none) (ht : e.key ∉ db.tombstones) :
    (db.insertRow e).Valid := by
  constructor
  · simp only [Index.insertRow, map_append, map_singleton]
    refine nodup_append.mpr ⟨h.nodup, nodup_singleton _, ?_⟩
    rintro k hk k' hk' rfl
    obtain ⟨r, hr, hkey⟩ := mem_map.mp hk
    exact Index.row_eq_none.mp hnew r hr (hkey.trans (mem_singleton.mp hk'))
  · intro r hr
    rcases mem_append.mp hr with hr | hr
    · exact h.buried r hr
    · obtain rfl := mem_singleton.mp hr
      exact ht

theorem Valid.replayEntry (h : db.Valid) (e : HistoryEntry) : (db.replayEntry e).Valid := by
  cases hrow : db.row e.key with
  | some r =>
    rw [replayEntry_of_row (by simp [hrow])]
    exact h.updateRow
  | none =>
    by_cases ht : e.key ∈ db.tombstones
    · rwa [replayEntry_of_buried hrow ht]
    · rw [replayEntry_of_new hrow ht]
      exact h.insertRow hrow ht

theorem Valid.foldl_replayEntry (h : db.Valid) (es : List HistoryEntry) :
    (es.foldl Index.replayEntry db).Valid := by
  induction es generalizing db with
  | nil => exact h
  | cons e es ih => exact ih (h.replayEntry e)

theorem Valid.replayTombstone (h : db.Valid) (k : Key) : (db.replayTombstone k).Valid := by
  rw [Index.replayTombstone]
  split
  · exact h
  · refine ⟨(filter_sublist.map _).nodup h.nodup, fun r hr => ?_⟩
    obtain ⟨hr, hne⟩ := mem_filter.mp hr
    rw [Finset.mem_insert, not_or]
    exact ⟨by simpa using hne, h.buried r hr⟩

theorem Valid.foldl_replayTombstone (h : db.Valid) (ks : List Key) :
    (ks.foldl Index.replayTombstone db).Valid := by
  induction ks generalizing db with
  | nil => exact h
  | cons k ks ih => exact ih (h.replayTombstone k)

/-- The index after some keys were buried. -/
def bury (db : Index) (ks : List Key) : Index := { db with
  tombstones := db.tombstones ∪ ks.toFinset
  rows := db.rows.filter fun r => r.key ∉ ks }

theorem foldl_replayTombstone (h : db.Valid) (ks : List Key) :
    ks.foldl Index.replayTombstone db = db.bury ks := by
  induction ks generalizing db with
  | nil => simp [bury]
  | cons k ks ih =>
    rw [foldl_cons, ih (h.replayTombstone k), replayTombstone]
    split
    next hk =>
      have hrows : db.rows.filter (fun r => r.key ∉ ks) = db.rows.filter fun r => r.key ∉ k :: ks := by
        refine filter_congr fun r hr => ?_
        have hne : r.key ≠ k := fun he => h.buried r hr (he ▸ hk)
        simp [hne]
      rw [bury, bury, hrows, toFinset_cons, Finset.union_insert,
        Finset.insert_eq_self.mpr (Finset.mem_union_left _ hk)]
    next =>
      simp only [bury, filter_filter, toFinset_cons, Finset.union_insert,
        Finset.insert_union]
      congr 1
      refine filter_congr fun r _ => ?_
      simp [Bool.and_comm]

theorem bury_congr (h : db.Valid) {ks ks' : List Key} (hsub : ∀ k ∈ ks', k ∈ ks)
    (hnew : ∀ k ∈ ks, k ∈ db.tombstones ∨ k ∈ ks') : db.bury ks = db.bury ks' := by
  have hrows : db.rows.filter (fun r => r.key ∉ ks) = db.rows.filter fun r => r.key ∉ ks' := by
    refine filter_congr fun r hr => ?_
    have hiff : r.key ∈ ks ↔ r.key ∈ ks' :=
      ⟨fun hk => (hnew _ hk).resolve_left (h.buried r hr), hsub _⟩
    simp [hiff]
  have htombs : db.tombstones ∪ ks.toFinset = db.tombstones ∪ ks'.toFinset := by
    ext k
    simp only [Finset.mem_union, mem_toFinset]
    exact ⟨fun hk => hk.elim .inl (hnew k), Or.imp_right (hsub k)⟩
  rw [bury, bury, hrows, htombs]

theorem settled_of_buried (h : db.Valid) (hk : e.key ∈ db.tombstones) : merging.Settled db e :=
  ⟨replayEntry_of_buried (h.row_eq_none hk) hk, .inr hk⟩

theorem settled_bury (h : db.Valid) (hs : merging.Settled db e) (ks : List Key) :
    merging.Settled (db.bury ks) e := by
  have hv : (db.bury ks).Valid := foldl_replayTombstone h ks ▸ h.foldl_replayTombstone ks
  by_cases hk : e.key ∈ (db.bury ks).tombstones
  · exact settled_of_buried hv hk
  · obtain ⟨hkt, hks⟩ : e.key ∉ db.tombstones ∧ e.key ∉ ks := by
      simpa [bury, not_or] using hk
    have hrow : (db.row e.key).isSome := hs.2.resolve_right hkt
    have hrow' : ((db.bury ks).row e.key).isSome := by
      obtain ⟨r, hr, hre⟩ := isSome_row.mp hrow
      exact isSome_row.mpr ⟨r, mem_filter.mpr ⟨hr, by simpa [hre] using hks⟩, hre⟩
    refine ⟨?_, .inl hrow'⟩
    have hsame : db.updateRow e = db := (replayEntry_of_row hrow).symm.trans hs.1
    have hrows : db.rows.map (fun r => if r.key = e.key then r.absorb e else r) = db.rows :=
      congrArg rows hsame
    have hid : ∀ r ∈ db.rows, (if r.key = e.key then r.absorb e else r) = r := by
      intro r hr
      obtain ⟨i, hi, rfl⟩ := getElem_of_mem hr
      have := congrArg (·[i]?) hrows
      simpa [hi] using this
    refine (replayEntry_of_row hrow').trans ?_
    have hkeep : ((db.bury ks).rows.map fun r => if r.key = e.key then r.absorb e else r) =
        (db.bury ks).rows := by
      refine (map_congr_left fun r hr => ?_).trans (map_id _)
      exact hid r (mem_of_mem_filter hr)
    rw [updateRow, hkeep]

end Index

end Nzbd.History
