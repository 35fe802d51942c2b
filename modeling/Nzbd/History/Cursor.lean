import Nzbd.Lib.Run
import Nzbd.History.Format

/-!
# The cursor of the history

A consumer asks for what is newer than the last id that it saw, and wants every
completion at most once.  Ids only go up (`Evolves.old`), and a key with a tombstone gets
no row.  What a prune drops is kept away by the retention floor, which is the completion
time of the oldest row that is left: **a row that was dropped with the same time comes
back from a log, under a new id** (`resurrected`).  A key that was dropped comes back,
too, if it is recorded again.

`at_most_once`: where neither happens, a key never has two ids, and what is gone stays
so.

`seen`, `gone` and `received` are books: they record what happened and nothing reads
them.
-/

namespace Nzbd.History

open List Runs
open Index

/-! ### Changes of the tables -/

/-- The ids of the rows go up, and none is beyond the last one. -/
structure Index.Counted (db : Index) : Prop where
  ascending : db.rows.Pairwise fun a b => a.id < b.id
  bounded : ∀ r ∈ db.rows, r.id ≤ db.lastId

/-- A change that gives new rows only to some keys, and that takes rows away only with a
tombstone. -/
structure Evolves (fresh : Key → Prop) (db db' : Index) : Prop where
  lastId : db.lastId ≤ db'.lastId
  tombstones : db.tombstones ⊆ db'.tombstones
  retentionFloor : db'.retentionFloor = db.retentionFloor
  valid : db.Valid → db'.Valid
  counted : db.Counted → db'.Counted
  old : ∀ r' ∈ db'.rows, (∃ r ∈ db.rows, r.key = r'.key ∧ r.id = r'.id) ∨
    db.lastId < r'.id ∧ fresh r'.key ∧ r'.key ∉ db.tombstones ∧ ∀ r ∈ db.rows, r.key ≠ r'.key
  kept : ∀ r ∈ db.rows, (∃ r' ∈ db'.rows, r'.key = r.key ∧ r'.id = r.id) ∨ r.key ∈ db'.tombstones

section Evolves

variable {fresh fresh' : Key → Prop} {db db₁ db₂ : Index} {e : HistoryEntry}

theorem Evolves.refl (db : Index) : Evolves fresh db db where
  lastId := le_rfl
  tombstones := Finset.Subset.refl _
  retentionFloor := rfl
  valid h := h
  counted h := h
  old r hr := .inl ⟨r, hr, rfl, rfl⟩
  kept r hr := .inl ⟨r, hr, rfl, rfl⟩

theorem Evolves.mono (h : Evolves fresh db db₁) (himp : ∀ k, fresh k → fresh' k) :
    Evolves fresh' db db₁ :=
  { h with old := fun r hr => (h.old r hr).imp_right fun hn => ⟨hn.1, himp _ hn.2.1, hn.2.2⟩ }

theorem Evolves.trans (h : Evolves fresh db db₁) (h' : Evolves fresh db₁ db₂) :
    Evolves fresh db db₂ where
  lastId := h.lastId.trans h'.lastId
  tombstones := h.tombstones.trans h'.tombstones
  retentionFloor := h'.retentionFloor.trans h.retentionFloor
  valid hv := h'.valid (h.valid hv)
  counted hc := h'.counted (h.counted hc)
  old := by
    intro r₂ hr₂
    rcases h'.old r₂ hr₂ with ⟨r₁, hr₁, hkey, hid⟩ | ⟨hlt, hfresh, hburied, hnone⟩
    · rw [← hkey, ← hid]
      exact h.old r₁ hr₁
    · refine .inr ⟨h.lastId.trans_lt hlt, hfresh, fun hb => hburied (h.tombstones hb), ?_⟩
      intro r hr hkey
      rcases h.kept r hr with ⟨r₁, hr₁, hkey₁, -⟩ | hb
      · exact hnone r₁ hr₁ (hkey₁.trans hkey)
      · exact hburied (hkey ▸ hb)
  kept := by
    intro r hr
    rcases h.kept r hr with ⟨r₁, hr₁, hkey, hid⟩ | hb
    · rw [← hkey, ← hid]
      exact h'.kept r₁ hr₁
    · exact .inr (h'.tombstones hb)

theorem evolves_of_map (f : Row → Row) (hf : ∀ r, (f r).key = r.key ∧ (f r).id = r.id) {n : Nat}
    (hn : db.lastId ≤ n) : Evolves fresh db { db with rows := db.rows.map f, lastId := n } where
  lastId := hn
  tombstones := Finset.Subset.refl _
  retentionFloor := rfl
  valid h := by
    constructor
    · rw [map_map]
      exact (map_congr_left fun r _ => (hf r).1).symm ▸ h.nodup
    · intro r' hr'
      obtain ⟨r, hr, rfl⟩ := mem_map.mp hr'
      rw [(hf r).1]
      exact h.buried r hr
  counted h := by
    constructor
    · refine pairwise_map.mpr (h.ascending.imp fun {a b} hab => ?_)
      rw [(hf a).2, (hf b).2]
      exact hab
    · intro r' hr'
      obtain ⟨r, hr, rfl⟩ := mem_map.mp hr'
      rw [(hf r).2]
      exact (h.bounded r hr).trans hn
  old r' hr' := by
    obtain ⟨r, hr, rfl⟩ := mem_map.mp hr'
    exact .inl ⟨r, hr, (hf r).1.symm, (hf r).2.symm⟩
  kept r hr := .inl ⟨f r, mem_map_of_mem hr, hf r⟩

theorem evolves_updateRow {n : Nat} (hn : db.lastId ≤ n) :
    Evolves fresh db { db.updateRow e with lastId := n } := by
  refine evolves_of_map (fun r => if r.key = e.key then r.absorb e else r) (fun r => ?_) hn
  split <;> exact ⟨rfl, rfl⟩

theorem evolves_insertRow (hnew : db.row e.key = none) (hburied : e.key ∉ db.tombstones) :
    Evolves (· = e.key) db (db.insertRow e) where
  lastId := Nat.le_succ _
  tombstones := Finset.Subset.refl _
  retentionFloor := rfl
  valid h := h.insertRow hnew hburied
  counted h := by
    have hall : ∀ r ∈ (db.insertRow e).rows, r ∈ db.rows ∨ r = ⟨db.lastId + 1, e, false⟩ :=
      fun r hr => (mem_append.mp hr).imp_right mem_singleton.mp
    constructor
    · refine pairwise_append.mpr ⟨h.ascending, pairwise_singleton _ _, ?_⟩
      intro a ha b hb
      obtain rfl := mem_singleton.mp hb
      exact Nat.lt_succ_of_le (h.bounded a ha)
    · intro r hr
      rcases hall r hr with hr | rfl
      · exact (h.bounded r hr).trans (Nat.le_succ _)
      · exact le_rfl
  old r' hr' := by
    rcases mem_append.mp hr' with hr' | hr'
    · exact .inl ⟨r', hr', rfl, rfl⟩
    · obtain rfl := mem_singleton.mp hr'
      exact .inr ⟨Nat.lt_succ_self _, rfl, hburied, row_eq_none.mp hnew⟩
  kept r hr := .inl ⟨r, mem_append_left _ hr, rfl, rfl⟩

theorem evolves_replayEntry (db : Index) (e : HistoryEntry) :
    Evolves (· = e.key) db (db.replayEntry e) := by
  rw [replayEntry]
  split
  next => exact evolves_updateRow le_rfl
  next hrow =>
    split
    next => exact .refl db
    next hburied => exact evolves_insertRow (Option.not_isSome_iff_eq_none.mp hrow) hburied

theorem evolves_insertSeq (db : Index) (e : HistoryEntry) :
    Evolves (· = e.key) db (db.insertSeq e) := by
  rw [insertSeq]
  split
  next => exact .refl db
  next hburied =>
    split
    next => exact evolves_updateRow (Nat.le_succ _)
    next hrow => exact evolves_insertRow (Option.not_isSome_iff_eq_none.mp hrow) hburied

theorem evolves_replayTombstone (db : Index) (k : Key) :
    Evolves fresh db (db.replayTombstone k) where
  lastId := by rw [replayTombstone]; split <;> exact le_rfl
  tombstones := by
    rw [replayTombstone]
    split
    · exact Finset.Subset.refl _
    · exact Finset.subset_insert _ _
  retentionFloor := by rw [replayTombstone]; split <;> rfl
  valid h := h.replayTombstone k
  counted h := by
    rw [replayTombstone]
    split
    · exact h
    · exact ⟨h.ascending.filter _, fun r hr => h.bounded r (mem_of_mem_filter hr)⟩
  old r' hr' := by
    rw [replayTombstone] at hr'
    split at hr'
    · exact .inl ⟨r', hr', rfl, rfl⟩
    · exact .inl ⟨r', mem_of_mem_filter hr', rfl, rfl⟩
  kept r hr := by
    rw [replayTombstone]
    split
    · exact .inl ⟨r, hr, rfl, rfl⟩
    · by_cases hk : r.key = k
      · exact .inr (hk ▸ Finset.mem_insert_self _ _)
      · exact .inl ⟨r, mem_filter.mpr ⟨hr, by simpa using hk⟩, rfl, rfl⟩

theorem evolves_foldl_tombstones (db : Index) (ks : List Key) :
    Evolves fresh db (ks.foldl Index.replayTombstone db) := by
  induction ks generalizing db with
  | nil => exact .refl db
  | cons k ks ih => exact (evolves_replayTombstone db k).trans (ih _)

theorem evolves_foldl_entries (db : Index) {es : List HistoryEntry} (h : ∀ e ∈ es, fresh e.key) :
    Evolves fresh db (es.foldl Index.replayEntry db) := by
  induction es generalizing db with
  | nil => exact .refl db
  | cons e es ih =>
    have hfirst : Evolves fresh db (db.replayEntry e) :=
      (evolves_replayEntry db e).mono fun k hk => hk ▸ h e mem_cons_self
    exact hfirst.trans (ih _ fun x hx => h x (mem_cons_of_mem _ hx))

theorem key_mergedValue {c : LogCodec} {s : HistorySync} {full : Bool} {floor : Int}
    {files : List (Text × LogFile)} {k : Key} {x : Place × HistoryEntry}
    (h : mergedValue c s full floor files k = some x) : x.2.key = k := by
  have hall : ∀ y ∈ files.filterMap (fun f =>
      (contribution (s.file f.1) (scanFile c full floor (s.file f.1) f) k).map (place f.1)),
      y.2.key = k := by
    intro y hy
    obtain ⟨f, -, hf⟩ := mem_filterMap.mp hy
    obtain ⟨d, hd, rfl⟩ := Option.map_eq_some_iff.mp hf
    rcases Option.or_eq_some_iff.mp hd with hd | ⟨-, hd⟩
    · obtain ⟨delta, -, hd⟩ := Option.bind_eq_some_iff.mp hd
      exact Merging.key_of_lookup hd
    · split at hd
      · cases hd
      · obtain ⟨o, -, hd⟩ := Option.bind_eq_some_iff.mp hd
        exact Merging.key_of_lookup hd
  rw [mergedValue] at h
  generalize files.filterMap (fun f =>
    (contribution (s.file f.1) (scanFile c full floor (s.file f.1) f) k).map (place f.1)) = l at h hall
  cases l with
  | nil => cases h
  | cons y l =>
    obtain rfl := Option.some.inj h
    exact (Merging.key_foldl_absorb (M := merging.located Place) y l).trans
      (hall y mem_cons_self)

/-- **A pass gives rows only to keys above the floor.** -/
theorem evolves_reconcile (c : LogCodec) (s : HistorySync) (full : Bool)
    (files : List (Text × LogFile)) (floor : Int) :
    Evolves (fun k => floor ≤ k.2) s.db (reconcile c s full files floor).db := by
  refine (evolves_foldl_tombstones s.db _).trans (evolves_foldl_entries _ fun e he => ?_)
  obtain ⟨x, hx, rfl⟩ := mem_map.mp he
  obtain ⟨k, hk, hkx⟩ := mem_filterMap.mp ((mem_insertionSort _).mp hx)
  have hk := (mem_filter.mp (mem_dedup.mp hk)).2
  rw [Bool.and_eq_true, decide_eq_true_eq] at hk
  rw [key_mergedValue hkx]
  exact hk.1

theorem evolves_replayLogs (c : LogCodec) (s : HistorySync) (r : Retention) (dir : LogDir)
    (quiet elapsed : Bool) (now : Int) :
    Evolves (fun k => ingestFloor s.db r now ≤ k.2) s.db
      (replayLogs c s r dir quiet elapsed now).db := by
  rw [replayLogs]
  split
  · exact .refl _
  · exact evolves_reconcile _ _ _ _ _

end Evolves

/-! ### Local operations -/

section Local

variable {c : LogFormat} {r : Retention} {dir : LogDir} {own : Text} {db : Index}

theorem evolves_markSynced (db : Index) (k : Key) : Evolves (fun _ => False) db (db.markSynced k) := by
  refine evolves_of_map (n := db.lastId) _ (fun r => ?_) le_rfl
  split <;> exact ⟨rfl, rfl⟩

theorem evolves_updateHidden (db : Index) (job : JobId) (hidden : Bool) (byClient : Option Text)
    (removedAt : Option Int) :
    Evolves (fun _ => False) db (db.updateHidden job hidden byClient removedAt) := by
  refine evolves_of_map (n := db.lastId) _ (fun r => ?_) le_rfl
  split <;> exact ⟨rfl, rfl⟩

/-- The key that an operation may give a row to. -/
def LocalOp.Records : LocalOp → Key → Prop
  | record e | recordSeqDurable e => (· = e.key)
  | _ => fun _ => False

theorem evolves_tables {op : LocalOp} (hop : ∀ now, op ≠ .prune now) :
    Evolves op.Records db (op.tables c r dir own db) := by
  cases op with
  | record e =>
    have htables : LocalOp.tables c r dir own db (.record e) = db.insertSeq e := by
      rw [LocalOp.tables, LocalOp.writes]
      split <;> rfl
    rw [htables]
    exact evolves_insertSeq db e
  | recordSeqDurable e =>
    rw [LocalOp.tables, LocalOp.writes]
    split
    · exact .refl db
    · refine (evolves_insertSeq db _).mono ?_ |>.trans ((evolves_markSynced _ _).mono ?_)
      · intro k hk
        exact hk.trans (LocalOp.key_canonical dir e)
      · exact fun k hk => hk.elim
  | setHidden job hidden byClient removedAt =>
    rw [LocalOp.tables_setHidden]
    exact evolves_updateHidden db job hidden byClient removedAt
  | delete job =>
    rw [LocalOp.tables_delete]
    exact evolves_foldl_tombstones db _
  | prune now => exact absurd rfl (hop now)

/-! ### Prunes -/

/-- A prune would drop a row that is as old as the oldest row that it leaves. -/
def Tied (db : Index) (r : Retention) (now : Int) : Prop :=
  ∃ x ∈ db.rows, x ∉ (db.trimmed r now).rows ∧
    (db.trimmed r now).oldest = some x.entry.completedAtUnix

instance (db : Index) (r : Retention) (now : Int) : Decidable (Tied db r now) :=
  inferInstanceAs (Decidable (∃ x ∈ db.rows, _))

/-- What a prune does to the tables: what it drops is below the floor that it leaves. -/
structure Trims (db db' : Index) : Prop where
  rows : db'.rows.Sublist db.rows
  lastId : db'.lastId = db.lastId
  tombstones : db'.tombstones = db.tombstones
  floor : ∀ f, db.retentionFloor = some f → ∃ f', db'.retentionFloor = some f' ∧ f ≤ f'
  dropped : ∀ x ∈ db.rows, x ∉ db'.rows →
    ∃ f, db'.retentionFloor = some f ∧ x.entry.completedAtUnix < f

theorem mem_dropAged {now : Int} {x : Row} : x ∈ (db.dropAged r now).rows ↔
    x ∈ db.rows ∧ ∀ cutoff, r.ageCutoff now = some cutoff → cutoff ≤ x.entry.completedAtUnix := by
  rw [dropAged]
  cases r.ageCutoff now with
  | none => simp
  | some cutoff => simp [mem_filter]

theorem dropAged_sublist (now : Int) : (db.dropAged r now).rows.Sublist db.rows := by
  rw [dropAged]
  split
  · exact filter_sublist
  · exact List.Sublist.refl _

theorem dropExcess_sublist : (db.dropExcess r).rows.Sublist db.rows := by
  rw [dropExcess]
  split
  · exact filter_sublist
  · exact List.Sublist.refl _

theorem trimmed_sublist (now : Int) : (db.trimmed r now).rows.Sublist db.rows :=
  dropExcess_sublist.trans (dropAged_sublist now)

theorem trimmed_fields (now : Int) : (db.trimmed r now).lastId = db.lastId ∧
    (db.trimmed r now).tombstones = db.tombstones ∧
      (db.trimmed r now).retentionFloor = db.retentionFloor := by
  rw [trimmed, dropExcess, dropAged]
  split <;> split <;> exact ⟨rfl, rfl, rfl⟩

theorem pairwise_newestFirst (db : Index) : db.newestFirst.Pairwise Row.Newer := by
  have : Std.Total Row.Newer := ⟨fun a b => by
    rw [Row.Newer, Row.Newer]
    omega⟩
  have : IsTrans Row Row.Newer := ⟨fun a b c hab hbc => by
    rw [Row.Newer] at *
    omega⟩
  exact pairwise_insertionSort Row.Newer db.rows

theorem mem_newestFirst {x : Row} : x ∈ db.newestFirst ↔ x ∈ db.rows :=
  mem_insertionSort Row.Newer

theorem le_of_dropExcess (hids : (db.rows.map (·.id)).Nodup) {x y : Row} (hx : x ∈ db.rows)
    (hout : x ∉ (db.dropExcess r).rows) (hy : y ∈ (db.dropExcess r).rows) :
    x.entry.completedAtUnix ≤ y.entry.completedAtUnix := by
  rw [dropExcess] at hout hy
  split at hout
  next hmax =>
    rw [if_pos hmax] at hy
    obtain ⟨hyrows, hyids⟩ := mem_filter.mp hy
    obtain ⟨y', hy', hid⟩ := mem_map.mp (of_decide_eq_true hyids)
    have hyeq : y' = y := inj_on_of_nodup_map hids
      (mem_newestFirst.mp (mem_of_mem_take hy')) hyrows hid
    have hxout : x ∉ db.newestFirst.take r.keepMax := fun hmem => hout (mem_filter.mpr
      ⟨hx, decide_eq_true (mem_map_of_mem hmem)⟩)
    have hsplit := mem_newestFirst.mpr hx
    rw [← take_append_drop r.keepMax db.newestFirst, mem_append] at hsplit
    have hpair := pairwise_newestFirst db
    rw [← take_append_drop r.keepMax db.newestFirst, pairwise_append] at hpair
    have hnewer : Row.Newer y x := hpair.2.2 y (hyeq ▸ hy') x (hsplit.resolve_left hxout)
    rw [Row.Newer] at hnewer
    omega
  next => exact absurd hx hout

theorem exists_mem_dropExcess {x : Row} (hx : x ∈ db.rows) (hout : x ∉ (db.dropExcess r).rows) :
    ∃ y, y ∈ (db.dropExcess r).rows := by
  rw [dropExcess] at hout ⊢
  split at hout
  next hmax =>
    rw [if_pos hmax]
    cases hnewest : db.newestFirst with
    | nil => exact absurd (mem_newestFirst.mpr hx) (hnewest ▸ not_mem_nil)
    | cons y ys =>
      refine ⟨y, mem_filter.mpr ⟨mem_newestFirst.mp (hnewest ▸ mem_cons_self), ?_⟩⟩
      obtain ⟨n, hn⟩ := Nat.exists_eq_add_of_lt hmax
      rw [hn, Nat.zero_add]
      simp
  next => exact absurd hx hout

theorem oldest_eq_some {m : Int} (h : db.oldest = some m) :
    (∃ y ∈ db.rows, y.entry.completedAtUnix = m) ∧ ∀ y ∈ db.rows, m ≤ y.entry.completedAtUnix := by
  have hmin := min?_eq_some_iff.mp h
  refine ⟨mem_map.mp hmin.1, fun y hy => hmin.2 _ (mem_map_of_mem hy)⟩

theorem oldest_isSome {y : Row} (hy : y ∈ db.rows) : ∃ m, db.oldest = some m := by
  cases h : db.oldest with
  | some m => exact ⟨m, rfl⟩
  | none =>
    rw [oldest, min?_eq_none_iff, map_eq_nil_iff] at h
    exact absurd hy (h ▸ not_mem_nil)

/-- **What is dropped is below the new floor**, if no row that is dropped is as old as the
oldest one that is left. -/
theorem trims_raisedFloor {now : Int} (hids : (db.rows.map (·.id)).Nodup)
    (hties : ¬Tied db r now) : Trims db ((db.trimmed r now).raisedFloor r now) := by
  obtain ⟨hlast, htombs, hfloor⟩ := @trimmed_fields r db now
  have hsub := @trimmed_sublist r db now
  have haged : ∀ x ∈ db.rows, x ∉ (db.dropAged r now).rows → ∃ cutoff,
      r.ageCutoff now = some cutoff ∧ x.entry.completedAtUnix < cutoff := by
    intro x hx hout
    by_contra hnone
    refine hout (mem_dropAged.mpr ⟨hx, fun cutoff hcut => ?_⟩)
    by_contra hlt
    exact hnone ⟨cutoff, hcut, not_le.mp hlt⟩
  have hidsAged : ((db.dropAged r now).rows.map (·.id)).Nodup :=
    ((dropAged_sublist now).map _).nodup hids
  have hlow : ∀ x ∈ db.rows, x ∉ (db.trimmed r now).rows → ∃ f,
      (db.trimmed r now).oldest.or (r.ageCutoff now) = some f ∧ x.entry.completedAtUnix < f := by
    intro x hx hout
    by_cases hage : x ∈ (db.dropAged r now).rows
    · obtain ⟨y, hy⟩ := exists_mem_dropExcess hage hout
      obtain ⟨m, hm⟩ := oldest_isSome hy
      obtain ⟨⟨z, hz, rfl⟩, -⟩ := oldest_eq_some hm
      have hle := le_of_dropExcess hidsAged hage hout hz
      refine ⟨_, by rw [trimmed, hm]; rfl, lt_of_le_of_ne hle fun heq => hties ⟨x, hx, hout, ?_⟩⟩
      rw [heq]
      exact hm
    · obtain ⟨cutoff, hcut, hlt⟩ := haged x hx hage
      cases hold : (db.trimmed r now).oldest with
      | none => exact ⟨cutoff, hcut, hlt⟩
      | some m =>
        obtain ⟨⟨z, hz, rfl⟩, -⟩ := oldest_eq_some hold
        exact ⟨_, rfl, hlt.trans_le ((mem_dropAged.mp (dropExcess_sublist.subset hz)).2 _ hcut)⟩
  rw [raisedFloor]
  cases hnew : (db.trimmed r now).oldest.or (r.ageCutoff now) with
  | none =>
    refine ⟨hsub, hlast, htombs, fun f hf => ⟨f, hfloor.trans hf, le_rfl⟩, fun x hx hout => ?_⟩
    obtain ⟨f, hf, -⟩ := hlow x hx hout
    rw [hnew] at hf
    nomatch hf
  | some floor =>
    refine ⟨hsub, hlast, htombs, fun f hf => ?_, fun x hx hout => ?_⟩
    · refine ⟨_, rfl, ?_⟩
      rw [hfloor, hf]
      exact le_max_right _ _
    · obtain ⟨f, hf, hlt⟩ := hlow x hx hout
      obtain rfl := Option.some.inj (hnew.symm.trans hf)
      refine ⟨_, rfl, hlt.trans_le ?_⟩
      cases (db.trimmed r now).retentionFloor with
      | none => exact le_rfl
      | some _ => exact le_max_left _ _

theorem tables_prune (now : Int) : LocalOp.tables c r dir own db (.prune now) =
    if r.isUnlimited then db
    else if (db.trimmed r now).rows.length = db.rows.length then db.trimmed r now
    else (db.trimmed r now).raisedFloor r now := by
  have hlog : ∀ (d : Index) (o : Option (List UInt8)),
      ((o.map Write.rewrite).toList).foldl Write.onTables d = d := by
    intro d o
    cases o <;> rfl
  rw [LocalOp.tables, LocalOp.writes]
  split
  next => rfl
  next =>
    split
    next => rfl
    next =>
      rw [foldl_append, foldl_cons, hlog]
      rfl

theorem rows_raisedFloor (now : Int) : (db.raisedFloor r now).rows = db.rows := by
  rw [raisedFloor]
  split <;> rfl

theorem prune_sublist (now : Int) :
    (LocalOp.tables c r dir own db (.prune now)).rows.Sublist db.rows := by
  rw [tables_prune]
  split
  · exact List.Sublist.refl _
  · split
    · exact trimmed_sublist now
    · rw [rows_raisedFloor]
      exact trimmed_sublist now

theorem trims_prune {now : Int} (hids : (db.rows.map (·.id)).Nodup)
    (hties : r.isUnlimited = false → ¬Tied db r now) :
    Trims db (LocalOp.tables c r dir own db (.prune now)) := by
  rw [tables_prune]
  split
  next =>
    exact ⟨List.Sublist.refl _, rfl, rfl, fun f hf => ⟨f, hf, le_rfl⟩,
      fun x hx hout => absurd hx hout⟩
  next hlimited =>
    split
    next hlen =>
      obtain ⟨hlast, htombs, hfloor⟩ := @trimmed_fields r db now
      have hrows := (@trimmed_sublist r db now).eq_of_length hlen
      refine ⟨trimmed_sublist now, hlast, htombs, fun f hf => ⟨f, hfloor.trans hf, le_rfl⟩, ?_⟩
      intro x hx hout
      exact absurd (hrows ▸ hx) hout
    next => exact trims_raisedFloor hids (hties (by simpa using hlimited))

end Local

/-! ### The feed -/

/-- An index and its consumer. -/
structure Feed where
  sync : HistorySync
  retention : Retention
  /-- The keys that ever had a row, with its id, in the order in which they got it. -/
  seen : List (Key × Nat)
  /-- The keys that lost their row. -/
  gone : List Key
  /-- The last id that the consumer saw. -/
  cursor : Nat
  received : List Key

inductive FeedEvent
  | perform (op : LocalOp) (dir : LogDir)
  | setRetention (r : Retention) (now : Int)
  | refresh (dir : LogDir) (quiet elapsed : Bool) (now : Int)
  | reopen (dir : LogDir) (now : Int)
  | poll (limit : Nat)

/-- The rows behind an id, the oldest first. -/
def Index.listSince (db : Index) (since limit : Nat) : List Row :=
  ((db.rows.filter fun r => since < r.id).insertionSort fun a b => a.id ≤ b.id).take limit

namespace Feed

def rowPair (r : Row) : Key × Nat := (r.key, r.id)

/-- A change of the index goes into the books. -/
def note (s : Feed) (sync : HistorySync) : Feed := { s with
  sync := sync
  seen := s.seen ++ (sync.db.rows.filter fun r => rowPair r ∉ s.seen).map rowPair
  gone := s.gone ++ (s.sync.db.rows.map Row.key).filter fun k => k ∉ sync.db.rows.map Row.key }

variable (c : LogFormat) (own : Text)

def after (s : Feed) : FeedEvent → Feed
  | .perform op dir => s.note { s.sync with db := op.tables c s.retention dir own s.sync.db }
  | .setRetention r now => { s with retention := r }.note
      { s.sync with db := (LocalOp.prune now).tables c r [] own s.sync.db }
  | .refresh dir quiet elapsed now =>
    s.note (replayLogs c.toLogCodec s.sync s.retention dir quiet elapsed now)
  | .reopen dir now => { s with retention := .unlimited }.note
      (replayLogs c.toLogCodec (.opened s.sync.db) .unlimited dir false false now)
  | .poll limit =>
    let rows := s.sync.db.listSince s.cursor limit
    { s with
      cursor := (rows.getLast?.map (·.id)).getD s.cursor
      received := s.received ++ rows.map Row.key }

end Feed

/-- No prune drops a row that is as old as the oldest row that it leaves, and no key
whose row was dropped is recorded again. -/
def FeedEvent.Settles (s : Feed) : FeedEvent → Prop
  | .perform (.record e) _ | .perform (.recordSeqDurable e) _ =>
    e.key ∈ s.gone → e.key ∈ s.sync.db.tombstones
  | .perform (.prune now) _ => s.retention.isUnlimited = false → ¬Tied s.sync.db s.retention now
  | .setRetention r now => r.isUnlimited = false → ¬Tied s.sync.db r now
  | _ => True

/-- A new index. -/
def Feed.start : Feed := ⟨.opened .empty, .unlimited, [], [], 0, []⟩

def FeedRun (c : LogFormat) (own : Text) (ok : Feed → FeedEvent → Prop) : Feed → Prop :=
  Run (· = Feed.start) (fun s e t => t = s.after c own e) ok

/-- **The contract of the cursor.** -/
structure Feed.Contract (s : Feed) : Prop where
  ascending : s.seen.Pairwise fun a b => a.2 < b.2
  once : ∀ a ∈ s.seen, ∀ b ∈ s.seen, a.1 = b.1 → a = b
  gone : ∀ k ∈ s.gone, s.sync.db.row k = none
  received : s.received.Nodup

/-- A key that gets no row from the logs. -/
def Index.Barred (db : Index) (k : Key) : Prop :=
  k ∈ db.tombstones ∨ ∃ f, db.retentionFloor = some f ∧ k.2 < f

/-- The invariant of the feed. -/
structure Feed.Inv (s : Feed) : Prop where
  valid : s.sync.db.Valid
  counted : s.sync.db.Counted
  bounded : ∀ a ∈ s.seen, a.2 ≤ s.sync.db.lastId
  ascending : s.seen.Pairwise fun a b => a.2 < b.2
  once : ∀ a ∈ s.seen, ∀ b ∈ s.seen, a.1 = b.1 → a = b
  visible : ∀ r ∈ s.sync.db.rows, Feed.rowPair r ∈ s.seen
  accounted : ∀ a ∈ s.seen, (∃ r ∈ s.sync.db.rows, Feed.rowPair r = a) ∨ a.1 ∈ s.gone
  barred : ∀ k ∈ s.gone, s.sync.db.Barred k
  absent : ∀ k ∈ s.gone, ∀ r ∈ s.sync.db.rows, r.key ≠ k
  passed : ∀ k ∈ s.received, ∃ n, (k, n) ∈ s.seen ∧ n ≤ s.cursor
  received : s.received.Nodup

namespace Feed

variable {s : Feed}

theorem Inv.contract (h : s.Inv) : s.Contract :=
  ⟨h.ascending, h.once, fun k hk => row_eq_none.mpr (h.absent k hk), h.received⟩

/-- **The step lemma of the books.** -/
theorem Inv.note (h : s.Inv) {sync : HistorySync} (hvalid : sync.db.Valid)
    (hcounted : sync.db.Counted) (hlast : s.sync.db.lastId ≤ sync.db.lastId)
    (hnew : ∀ r' ∈ sync.db.rows, rowPair r' ∈ s.seen ∨
      s.sync.db.lastId < r'.id ∧ ∀ a ∈ s.seen, a.1 ≠ r'.key)
    (hlost : ∀ r ∈ s.sync.db.rows, (∃ r' ∈ sync.db.rows, rowPair r' = rowPair r) ∨
      sync.db.Barred r.key ∧ ∀ r' ∈ sync.db.rows, r'.key ≠ r.key)
    (hbarred : ∀ k ∈ s.gone, sync.db.Barred k ∧ ∀ r' ∈ sync.db.rows, r'.key ≠ k) :
    (s.note sync).Inv := by
  have hfresh : ∀ a ∈ (sync.db.rows.filter fun r => rowPair r ∉ s.seen).map rowPair,
      ∃ r ∈ sync.db.rows, rowPair r = a ∧ s.sync.db.lastId < a.2 ∧ ∀ b ∈ s.seen, b.1 ≠ a.1 := by
    intro a ha
    obtain ⟨r, hr, rfl⟩ := mem_map.mp ha
    obtain ⟨hr, hout⟩ := mem_filter.mp hr
    exact ⟨r, hr, rfl, (hnew r hr).resolve_left (of_decide_eq_true hout)⟩
  have hkeys : ∀ r ∈ sync.db.rows, ∀ r' ∈ sync.db.rows, r.key = r'.key → r = r' :=
    fun r hr r' hr' => inj_on_of_nodup_map hvalid.nodup hr hr'
  constructor
  · exact hvalid
  · exact hcounted
  · intro a ha
    rcases mem_append.mp ha with ha | ha
    · exact (h.bounded a ha).trans hlast
    · obtain ⟨r, hr, rfl, -⟩ := hfresh a ha
      exact hcounted.bounded r hr
  · refine pairwise_append.mpr ⟨h.ascending, ?_, fun a ha b hb => ?_⟩
    · exact pairwise_map.mpr (hcounted.ascending.filter _)
    · obtain ⟨-, -, -, hlt, -⟩ := hfresh b hb
      exact (h.bounded a ha).trans_lt hlt
  · intro a ha b hb hkey
    rcases mem_append.mp ha with ha | ha <;> rcases mem_append.mp hb with hb | hb
    · exact h.once a ha b hb hkey
    · obtain ⟨-, -, -, -, hne⟩ := hfresh b hb
      exact absurd hkey (hne a ha)
    · obtain ⟨-, -, -, -, hne⟩ := hfresh a ha
      exact absurd hkey.symm (hne b hb)
    · obtain ⟨r, hr, rfl, -⟩ := hfresh a ha
      obtain ⟨r', hr', rfl, -⟩ := hfresh b hb
      rw [hkeys r hr r' hr' hkey]
  · intro r hr
    by_cases hin : rowPair r ∈ s.seen
    · exact mem_append_left _ hin
    · exact mem_append_right _ (mem_map_of_mem (mem_filter.mpr ⟨hr, by simpa using hin⟩))
  · intro a ha
    rcases mem_append.mp ha with ha | ha
    · rcases h.accounted a ha with ⟨r, hr, rfl⟩ | hgone
      · refine (hlost r hr).imp_right fun hout => mem_append_right _ ?_
        refine mem_filter.mpr ⟨mem_map_of_mem hr, decide_eq_true fun hmem => ?_⟩
        obtain ⟨r', hr', hkey⟩ := mem_map.mp hmem
        exact hout.2 r' hr' hkey
      · exact .inr (mem_append_left _ hgone)
    · obtain ⟨r, hr, hpair, -⟩ := hfresh a ha
      exact .inl ⟨r, hr, hpair⟩
  · intro k hk
    rcases mem_append.mp hk with hk | hk
    · exact (hbarred k hk).1
    · obtain ⟨hk, hout⟩ := mem_filter.mp hk
      obtain ⟨r, hr, rfl⟩ := mem_map.mp hk
      rcases hlost r hr with ⟨r', hr', hpair⟩ | hb
      · refine absurd (mem_map.mpr ⟨r', hr', ?_⟩) (of_decide_eq_true hout)
        exact congrArg Prod.fst hpair
      · exact hb.1
  · intro k hk r hr
    rcases mem_append.mp hk with hk | hk
    · exact (hbarred k hk).2 r hr
    · rintro rfl
      exact of_decide_eq_true (mem_filter.mp hk).2 (mem_map_of_mem hr)
  · intro k hk
    obtain ⟨n, hn, hle⟩ := h.passed k hk
    exact ⟨n, mem_append_left _ hn, hle⟩
  · exact h.received

theorem Inv.evolves (h : s.Inv) {fresh : Key → Prop} {sync : HistorySync}
    (he : Evolves fresh s.sync.db sync.db)
    (hfresh : ∀ k ∈ s.gone, fresh k → k ∈ s.sync.db.tombstones) : (s.note sync).Inv := by
  have hvalid := he.valid h.valid
  have hburied : ∀ k ∈ sync.db.tombstones, ∀ r' ∈ sync.db.rows, r'.key ≠ k :=
    fun k hk r' hr' hkey => hvalid.buried r' hr' (hkey ▸ hk)
  refine h.note hvalid (he.counted h.counted) he.lastId ?_ ?_ ?_
  · intro r' hr'
    rcases he.old r' hr' with ⟨r, hr, hkey, hid⟩ | ⟨hlt, hf, hnot, hnone⟩
    · have hpair : rowPair r' = rowPair r := by rw [rowPair, rowPair, hkey, hid]
      exact .inl (hpair ▸ h.visible r hr)
    · refine .inr ⟨hlt, fun a ha hkey => ?_⟩
      rcases h.accounted a ha with ⟨r, hr, rfl⟩ | hgone
      · exact hnone r hr hkey
      · exact hnot (hfresh _ (hkey ▸ hgone) hf)
  · intro r hr
    rcases he.kept r hr with ⟨r', hr', hkey, hid⟩ | hb
    · exact .inl ⟨r', hr', by rw [rowPair, rowPair, hkey, hid]⟩
    · exact .inr ⟨.inl hb, hburied _ hb⟩
  · intro k hk
    refine ⟨(h.barred k hk).imp (fun hb => he.tombstones hb) fun hf => ?_, fun r' hr' hkey => ?_⟩
    · rw [he.retentionFloor]
      exact hf
    · rcases he.old r' hr' with ⟨r, hr, hkey', -⟩ | ⟨-, hf, hnot, -⟩
      · exact h.absent k hk r hr (hkey'.trans hkey)
      · exact hnot (hkey ▸ hfresh k hk (hkey ▸ hf))

theorem Inv.trims (h : s.Inv) {sync : HistorySync} (ht : Trims s.sync.db sync.db) :
    (s.note sync).Inv := by
  refine h.note ⟨(ht.rows.map _).nodup h.valid.nodup, fun r hr => ?_⟩
    ⟨h.counted.ascending.sublist ht.rows, fun r hr => ?_⟩ ht.lastId.ge ?_ ?_ ?_
  · rw [ht.tombstones]
    exact h.valid.buried r (ht.rows.subset hr)
  · rw [ht.lastId]
    exact h.counted.bounded r (ht.rows.subset hr)
  · exact fun r' hr' => .inl (h.visible r' (ht.rows.subset hr'))
  · intro r hr
    by_cases hin : r ∈ sync.db.rows
    · exact .inl ⟨r, hin, rfl⟩
    · refine .inr ⟨.inr (ht.dropped r hr hin), fun r' hr' hkey => hin ?_⟩
      rwa [← inj_on_of_nodup_map h.valid.nodup (ht.rows.subset hr') hr hkey]
  · intro k hk
    refine ⟨(h.barred k hk).imp (fun hb => ht.tombstones ▸ hb) ?_, fun r' hr' =>
      h.absent k hk r' (ht.rows.subset hr')⟩
    rintro ⟨f, hf, hlt⟩
    obtain ⟨f', hf', hle⟩ := ht.floor f hf
    exact ⟨f', hf', hlt.trans_le hle⟩

theorem Inv.buried_of_floor (h : s.Inv) (r : Retention) (now : Int) :
    ∀ k ∈ s.gone, ingestFloor s.sync.db r now ≤ k.2 → k ∈ s.sync.db.tombstones := by
  intro k hk hle
  refine (h.barred k hk).resolve_right ?_
  rintro ⟨f, hf, hlt⟩
  have hfloor : f ≤ ingestFloor s.sync.db r now := by
    rw [ingestFloor, hf]
    exact le_max_left _ _
  omega

theorem Inv.poll (h : s.Inv) (c : LogFormat) (own : Text) (limit : Nat) :
    (s.after c own (.poll limit)).Inv := by
  have hsorted : (s.sync.db.listSince s.cursor limit).Pairwise fun a b => a.id ≤ b.id :=
    (pairwise_insertionSort _ _).sublist (take_sublist _ _)
  have hmem : ∀ r ∈ s.sync.db.listSince s.cursor limit, r ∈ s.sync.db.rows ∧ s.cursor < r.id := by
    intro r hr
    have hr := (mem_insertionSort _).mp (mem_of_mem_take hr)
    exact ⟨mem_of_mem_filter hr, of_decide_eq_true (mem_filter.mp hr).2⟩
  have hlast : s.cursor ≤ (s.after c own (.poll limit)).cursor ∧
      ∀ r ∈ s.sync.db.listSince s.cursor limit, r.id ≤ (s.after c own (.poll limit)).cursor := by
    change s.cursor ≤ ((s.sync.db.listSince s.cursor limit).getLast?.map (·.id)).getD s.cursor ∧
      ∀ r ∈ s.sync.db.listSince s.cursor limit,
        r.id ≤ ((s.sync.db.listSince s.cursor limit).getLast?.map (·.id)).getD s.cursor
    generalize s.sync.db.listSince s.cursor limit = rows at hsorted hmem
    rcases eq_nil_or_concat rows with rfl | ⟨init, last, rfl⟩
    · exact ⟨le_rfl, fun r hr => absurd hr not_mem_nil⟩
    · rw [concat_eq_append] at *
      rw [getLast?_concat]
      refine ⟨(hmem last (by simp)).2.le, fun r hr => ?_⟩
      rcases mem_append.mp hr with hr | hr
      · exact (pairwise_append.mp hsorted).2.2 r hr last (mem_singleton_self _)
      · exact (mem_singleton.mp hr) ▸ le_rfl
  have hnodup : ((s.sync.db.listSince s.cursor limit).map Row.key).Nodup := by
    have hfilter : ((s.sync.db.rows.filter fun r => s.cursor < r.id).map Row.key).Nodup :=
      (filter_sublist.map _).nodup h.valid.nodup
    have hperm := ((perm_insertionSort (fun a b : Row => a.id ≤ b.id)
      (s.sync.db.rows.filter fun r => s.cursor < r.id)).map Row.key).nodup_iff
    exact ((take_sublist _ _).map _).nodup (hperm.mpr hfilter)
  refine { h with passed := fun k hk => ?_, received := ?_ }
  · rcases mem_append.mp hk with hk | hk
    · obtain ⟨n, hn, hle⟩ := h.passed k hk
      exact ⟨n, hn, hle.trans hlast.1⟩
    · obtain ⟨r, hr, rfl⟩ := mem_map.mp hk
      exact ⟨r.id, h.visible r (hmem r hr).1, hlast.2 r hr⟩
  · refine nodup_append.mpr ⟨h.received, hnodup, ?_⟩
    rintro k hk k' hk' rfl
    obtain ⟨n, hn, hle⟩ := h.passed k hk
    obtain ⟨r, hr, rfl⟩ := mem_map.mp hk'
    have hsame := h.once _ hn _ (h.visible r (hmem r hr).1) rfl
    have hid : n = r.id := congrArg Prod.snd hsame
    have := (hmem r hr).2
    omega

theorem inv_start : Feed.start.Inv where
  valid := valid_empty
  counted := ⟨.nil, fun _ h => absurd h not_mem_nil⟩
  bounded _ h := absurd h not_mem_nil
  ascending := .nil
  once _ h := absurd h not_mem_nil
  visible _ h := absurd h not_mem_nil
  accounted _ h := absurd h not_mem_nil
  barred _ h := absurd h not_mem_nil
  absent _ h := absurd h not_mem_nil
  passed _ h := absurd h not_mem_nil
  received := nodup_nil

theorem Inv.retention (h : s.Inv) (r : Retention) : Inv { s with retention := r } := { h with }

/-- **The step lemma of the feed.** -/
theorem Inv.after (h : s.Inv) {c : LogFormat} {own : Text} {e : FeedEvent} (he : e.Settles s) :
    (s.after c own e).Inv := by
  have hids : (s.sync.db.rows.map (·.id)).Nodup :=
    pairwise_map.mpr (h.counted.ascending.imp ne_of_lt)
  cases e with
  | perform op dir =>
    cases op with
    | record e =>
      exact h.evolves (evolves_tables (fun _ hop => nomatch hop)) fun k hk hkey => by
        obtain rfl : k = e.key := hkey
        exact he hk
    | recordSeqDurable e =>
      exact h.evolves (evolves_tables (fun _ hop => nomatch hop)) fun k hk hkey => by
        obtain rfl : k = e.key := hkey
        exact he hk
    | setHidden job hidden byClient removedAt =>
      exact h.evolves (evolves_tables (fun _ hop => nomatch hop)) fun k hk hkey => hkey.elim
    | delete job =>
      exact h.evolves (evolves_tables (fun _ hop => nomatch hop)) fun k hk hkey => hkey.elim
    | prune now => exact h.trims (trims_prune hids he)
  | setRetention r now => exact (h.retention r).trims (trims_prune hids he)
  | refresh dir quiet elapsed now =>
    exact h.evolves (evolves_replayLogs _ _ _ _ _ _ _) (h.buried_of_floor _ _)
  | reopen dir now =>
    exact (h.retention .unlimited).evolves
      (evolves_replayLogs c.toLogCodec (.opened s.sync.db) .unlimited dir false false now)
      (h.buried_of_floor _ _)
  | poll limit => exact h.poll c own limit

end Feed

/-- **The cursor contract holds** as long as no prune drops a row that is as old as the
oldest row that it leaves, and no key whose row was dropped is recorded again.  A new row
has an id beyond all that were ever given out. -/
theorem at_most_once (c : LogFormat) (own : Text) {s : Feed}
    (h : FeedRun c own (fun s e => e.Settles s) s) :
    s.Contract ∧ ∀ e, ∀ r' ∈ (s.after c own e).sync.db.rows,
      (∃ r ∈ s.sync.db.rows, r.key = r'.key ∧ r.id = r'.id) ∨ s.sync.db.lastId < r'.id := by
  have hinv : s.Inv := Run.invariant (fun s hs => hs ▸ Feed.inv_start)
    (fun s e t hs he ht => ht ▸ hs.after he) h
  refine ⟨hinv.contract, fun e r' hr' => ?_⟩
  have hevolves : ∀ {fresh : Key → Prop} {db' : Index}, Evolves fresh s.sync.db db' →
      r' ∈ db'.rows → (∃ r ∈ s.sync.db.rows, r.key = r'.key ∧ r.id = r'.id) ∨
        s.sync.db.lastId < r'.id := fun he hr => (he.old r' hr).imp_right And.left
  cases e with
  | perform op dir =>
    by_cases hop : ∃ now, op = .prune now
    · obtain ⟨now, rfl⟩ := hop
      exact .inl ⟨r', (prune_sublist now).subset hr', rfl, rfl⟩
    · exact hevolves (evolves_tables fun now hop' => hop ⟨now, hop'⟩) hr'
  | setRetention r now => exact .inl ⟨r', (prune_sublist now).subset hr', rfl, rfl⟩
  | refresh dir quiet elapsed now => exact hevolves (evolves_replayLogs _ _ _ _ _ _ _) hr'
  | reopen dir now =>
    exact hevolves
      (evolves_replayLogs c.toLogCodec (.opened s.sync.db) .unlimited dir false false now) hr'
  | poll limit => exact .inl ⟨r', hr', rfl, rfl⟩

/-! ### Two feeds -/

def ownLog : Text := "history.a.jsonl".toList

def peerLog : Text × LogFile := ("history.b.jsonl".toList, ⟨1, 0, finishedLine ++ [State.lf]⟩)

/-- The entry of a peer is taken in, another one is recorded, and only one is kept. -/
def feedEvents (e : HistoryEntry) (line : List UInt8) : List FeedEvent :=
  [.reopen [peerLog] 100, .perform (.record e) [peerLog], .setRetention ⟨1, 0⟩ 300,
    .refresh [(ownLog, ⟨2, 1, line ++ [State.lf]⟩), peerLog] true true 400, .poll 10]

def feedAfter (es : List FeedEvent) : Feed :=
  es.foldl (Feed.after episodeTable.format ownLog) Feed.start

theorem FeedRun.after {c : LogFormat} {own : Text} {ok : Feed → FeedEvent → Prop} {s : Feed}
    (h : FeedRun c own ok s) {e : FeedEvent} (he : ok s e) : FeedRun c own ok (s.after c own e) :=
  .step h he rfl

theorem run_feedAfter (es : List FeedEvent) :
    FeedRun episodeTable.format ownLog (fun _ _ => True) (feedAfter es) := by
  have hfrom : ∀ s, FeedRun episodeTable.format ownLog (fun _ _ => True) s →
      FeedRun episodeTable.format ownLog (fun _ _ => True)
        (es.foldl (Feed.after episodeTable.format ownLog) s) := by
    induction es with
    | nil => exact fun s hs => hs
    | cons e es ih => exact fun s hs => ih _ (hs.after trivial)
  exact hfrom Feed.start (.start rfl)

/-- An entry of the peer is dropped, and it is as old as the one that is kept: a later pass
takes it in again, under a new id. -/
theorem resurrected : ¬∀ s, FeedRun episodeTable.format ownLog (fun _ _ => True) s → s.Contract := by
  intro hall
  have hcontract := hall _ (run_feedAfter (feedEvents tiedEntry tiedLine))
  have hgone : ((7, 100) : Key) ∈ (feedAfter (feedEvents tiedEntry tiedLine)).gone := by
    decide +kernel
  have hrow : ((feedAfter (feedEvents tiedEntry tiedLine)).sync.db.row (7, 100)).isSome := by
    decide +kernel
  rw [hcontract.gone _ hgone] at hrow
  nomatch hrow

theorem at_most_once_later : (feedAfter (feedEvents laterEntry laterLine)).Contract ∧
    (feedAfter (feedEvents laterEntry laterLine)).gone = [(7, 100)] ∧
      (feedAfter (feedEvents laterEntry laterLine)).received = [(8, 200)] := by
  have hstart : FeedRun episodeTable.format ownLog (fun s e => e.Settles s) Feed.start := .start rfl
  have h1 := hstart.after (show FeedEvent.Settles _ (.reopen [peerLog] 100) from trivial)
  have h2 := h1.after (show FeedEvent.Settles _ (.perform (.record laterEntry) [peerLog]) by
    intro hgone
    exact absurd hgone (by decide +kernel))
  have h3 := h2.after (show FeedEvent.Settles _ (.setRetention ⟨1, 0⟩ 300) by
    intro _
    decide +kernel)
  have h4 := h3.after (show FeedEvent.Settles _ (.refresh
    [(ownLog, ⟨2, 1, laterLine ++ [State.lf]⟩), peerLog] true true 400) from trivial)
  have h5 := h4.after (show FeedEvent.Settles _ (.poll 10) from trivial)
  exact ⟨(at_most_once _ _ h5).1, by decide +kernel, by decide +kernel⟩

end Nzbd.History
