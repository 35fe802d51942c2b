import Nzbd.History.Cursor
import Nzbd.History.Fence
import Nzbd.History.Fresh

/-!
# Operations and passes, one after the other

A pass and the operations of its node do not mix (`replay_fenced`).  Here an operation
is done at once, or up to the write at which it stops, and so is a pass.

* `index_mem_writes`: what an operation may do to the tables, write by write.
* `changes_cases`: an operation writes to its log at most once.
* `saidByAll_of_mem_passEntries`: a pass takes in what all lines say of a key.
-/

namespace Nzbd.History

open List Index

/-! ### Operations -/

def HistoryEntry.marked (e : HistoryEntry) (hidden : Bool) (byClient : Option Text)
    (removedAt : Option Int) : HistoryEntry := { e with
  hidden := hidden
  removedAtUnix := if hidden then removedAt else none
  pickedUpBy := byClient.or e.pickedUpBy }

/-- A write to the log. -/
def Write.logs : Write → Bool
  | index _ => false
  | append _ | rewrite _ => true

namespace LocalOp

section Written

variable (c : LogFormat) (r : Retention) (dir : LogDir) (own : Text) (db : Index) (op : LocalOp)

/-- What is written before the operation stops. -/
def written (n : Nat) : List Write := (op.writes c r dir own db).take n

def Finished (n : Nat) : Prop := (op.writes c r dir own db).length ≤ n

instance (n : Nat) : Decidable (op.Finished c r dir own db n) := inferInstanceAs (Decidable (_ ≤ _))

def changes (n ino modified : Nat) : List LogChange :=
  (op.written c r dir own db n).filterMap (Write.change own dir ino modified)

/-- What holds of the rows, and of what the operation puts into them. -/
def Upholds (Q : HistoryEntry → Prop) : LocalOp → Prop
  | record e => (∀ r ∈ db.rows, Q r.entry) ∧ Q e
  | recordSeqDurable e => (∀ r ∈ db.rows, Q r.entry) ∧ Q (canonical c dir e)
  | setHidden job hidden byClient removedAt => ∀ r ∈ db.rows,
      Q (if r.entry.job = job then r.entry.marked hidden byClient removedAt else r.entry)
  | delete _ | prune _ => ∀ r ∈ db.rows, Q r.entry

end Written

variable {c : LogFormat} {r : Retention} {dir : LogDir} {own : Text} {db : Index} {op : LocalOp}

theorem change_isSome (dir : LogDir) (ino modified : Nat) (w : Write) :
    (w.change own dir ino modified).isSome = w.logs := by
  cases w with
  | index db => rfl
  | append bytes =>
    rw [Write.change]
    split <;> rfl
  | rewrite bytes => rfl

theorem length_filter_logs : ((op.writes c r dir own db).filter Write.logs).length ≤ 1 := by
  cases op with
  | record e =>
    rw [writes]
    split <;> simp [filter_cons, Write.logs]
  | recordSeqDurable e =>
    rw [writes]
    split <;> simp [filter_cons, Write.logs]
  | setHidden job hidden byClient removedAt =>
    rw [writes]
    split
    · cases (db.updateHidden job hidden byClient removedAt).listed job <;>
        simp [filter_cons, Write.logs]
    · simp [Write.logs]
  | delete job =>
    rw [writes]
    split <;> simp [filter_cons, Write.logs]
  | prune now =>
    rw [writes]
    split
    · simp
    · split
      · simp [Write.logs]
      · cases compacted c.toLogCodec ((db.trimmed r now).rows.map Row.key) (logBytes dir own) <;>
          simp [filter_cons, Write.logs]

/-- **An operation writes to its log at most once.** -/
theorem changes_cases {seen : List (Text × Nat)} {n ino modified : Nat} (hino : (own, ino) ∉ seen) :
    op.changes c r dir own db n ino modified = [] ∨
      ∃ ch, op.changes c r dir own db n ino modified = [ch] ∧ ch.Enabled seen := by
  have hlength : (op.changes c r dir own db n ino modified).length ≤ 1 := by
    rw [changes, length_filterMap_eq_countP, countP_eq_length_filter]
    simp only [change_isSome]
    exact ((take_sublist n _).filter _).length_le.trans length_filter_logs
  cases hch : op.changes c r dir own db n ino modified with
  | nil => exact .inl rfl
  | cons ch chs =>
    rw [hch, length_cons] at hlength
    obtain rfl : chs = [] := length_eq_zero_iff.mp (by omega)
    refine .inr ⟨ch, rfl, ?_⟩
    obtain ⟨w, -, hw⟩ := mem_filterMap.mp (hch ▸ mem_cons_self : ch ∈ changes ..)
    cases w with
    | index db => nomatch hw
    | append bytes =>
      rw [Write.change] at hw
      split at hw
      · exact Option.some.inj hw ▸ trivial
      · exact Option.some.inj hw ▸ hino
    | rewrite bytes => exact Option.some.inj hw ▸ hino

/-! ### What is written to the tables -/

variable {Q : HistoryEntry → Prop} {db' : Index} {e : HistoryEntry}

theorem forall_rows_updateRow {n : Nat}
    (habs : ∀ x, Q x → x.key = e.key → Q (x.absorb e)) (hdb : ∀ r ∈ db.rows, Q r.entry) :
    ∀ r ∈ ({ db.updateRow e with lastId := n } : Index).rows, Q r.entry := by
  intro r' hr'
  obtain ⟨r, hr, rfl⟩ := mem_map.mp hr'
  split
  next hkey => exact habs r.entry (hdb r hr) hkey
  next => exact hdb r hr

theorem forall_rows_insertRow (hdb : ∀ r ∈ db.rows, Q r.entry) (he : Q e) :
    ∀ r ∈ (db.insertRow e).rows, Q r.entry := by
  intro r hr
  rcases mem_append.mp hr with hr | hr
  · exact hdb r hr
  · exact mem_singleton.mp hr ▸ he

theorem forall_rows_insertSeq
    (habs : ∀ x, Q x → x.key = e.key → Q (x.absorb e)) (hdb : ∀ r ∈ db.rows, Q r.entry)
    (he : Q e) : ∀ r ∈ (db.insertSeq e).rows, Q r.entry := by
  rw [insertSeq]
  repeat' split
  · exact hdb
  · exact forall_rows_updateRow habs hdb
  · exact forall_rows_insertRow hdb he

theorem forall_rows_replayEntry
    (habs : ∀ x, Q x → x.key = e.key → Q (x.absorb e)) (hdb : ∀ r ∈ db.rows, Q r.entry)
    (he : Q e) : ∀ r ∈ (db.replayEntry e).rows, Q r.entry := by
  rw [replayEntry]
  repeat' split
  · exact forall_rows_updateRow (n := db.lastId) habs hdb
  · exact hdb
  · exact forall_rows_insertRow hdb he

theorem forall_rows_replay {es : List HistoryEntry} (hv : db.Valid)
    (habs : ∀ x e, Q x → Q e → x.key = e.key → Q (x.absorb e)) (hdb : ∀ r ∈ db.rows, Q r.entry)
    (hes : ∀ e ∈ es, e.key ∉ db.tombstones → Q e) :
    ∀ r ∈ (es.foldl Index.replayEntry db).rows, Q r.entry := by
  induction es generalizing db with
  | nil => exact hdb
  | cons e es ih =>
    refine ih (hv.replayEntry e) ?_ fun x hx hxk => ?_
    · by_cases hk : e.key ∈ db.tombstones
      · rwa [replayEntry_of_buried (hv.row_eq_none hk) hk]
      · have he := hes e mem_cons_self hk
        exact forall_rows_replayEntry (fun x hx => habs x e hx he) hdb he
    · rw [tombstones_replayEntry] at hxk
      exact hes x (mem_cons_of_mem _ hx) hxk

theorem forall_rows_foldl_tombstones (ks : List Key) (hdb : ∀ r ∈ db.rows, Q r.entry) :
    ∀ r ∈ (ks.foldl Index.replayTombstone db).rows, Q r.entry := by
  rw [foldl_tombstones_eq]
  exact fun r hr => hdb r (mem_of_mem_filter hr)

theorem forall_rows_markSynced (k : Key) (hdb : ∀ r ∈ db.rows, Q r.entry) :
    ∀ r ∈ (db.markSynced k).rows, Q r.entry := by
  intro r' hr'
  obtain ⟨r, hr, rfl⟩ := mem_map.mp hr'
  split <;> exact hdb r hr

theorem forall_rows_updateHidden {job : JobId} {hidden : Bool} {byClient : Option Text}
    {removedAt : Option Int} (h : ∀ r ∈ db.rows,
      Q (if r.entry.job = job then r.entry.marked hidden byClient removedAt else r.entry)) :
    ∀ r ∈ (db.updateHidden job hidden byClient removedAt).rows, Q r.entry := by
  intro r' hr'
  obtain ⟨r, hr, rfl⟩ := mem_map.mp hr'
  have hrow := h r hr
  split
  next hjob => rwa [if_pos hjob] at hrow
  next hjob => rwa [if_neg hjob] at hrow

theorem index_mem_writes (hw : .index db' ∈ op.writes c r dir own db) :
    match op with
    | record e => db' = db.insertSeq e
    | recordSeqDurable e => db' = db.insertSeq (canonical c dir e) ∨
        db' = (db.insertSeq (canonical c dir e)).markSynced (canonical c dir e).key
    | setHidden job hidden byClient removedAt => db' = db.updateHidden job hidden byClient removedAt
    | delete job => db' = (db.keysOf job).dedup.foldl Index.replayTombstone db
    | prune now => db' = db.dropAged r now ∨ db' = db.trimmed r now ∨
        db' = (db.trimmed r now).raisedFloor r now := by
  cases op with
  | record e =>
    rw [writes] at hw
    split at hw <;> simpa using hw
  | recordSeqDurable e =>
    rw [writes] at hw
    split at hw
    · simp at hw
    · simpa using hw
  | setHidden job hidden byClient removedAt =>
    rw [writes] at hw
    rcases mem_cons.mp hw with hw | hw
    · exact Write.index.inj hw
    · split at hw <;> simp at hw
  | delete job =>
    rw [writes] at hw
    split at hw <;> simpa using hw
  | prune now =>
    rw [writes] at hw
    split at hw
    · simp at hw
    · split at hw
      · have hw : db' = db.dropAged r now ∨ db' = db.trimmed r now := by simpa using hw
        exact hw.imp_right .inl
      · simpa [or_assoc] using hw

theorem valid_of_sublist (hsub : db'.rows.Sublist db.rows) (htombs : db'.tombstones = db.tombstones)
    (hv : db.Valid) : db'.Valid :=
  ⟨(hsub.map _).nodup hv.nodup, fun r hr => htombs ▸ hv.buried r (hsub.subset hr)⟩

theorem pruned_cases {now : Int} (hw : db' = db.dropAged r now ∨ db' = db.trimmed r now ∨
    db' = (db.trimmed r now).raisedFloor r now) :
    db'.rows.Sublist db.rows ∧ db'.tombstones = db.tombstones := by
  have haged : (db.dropAged r now).tombstones = db.tombstones := by
    rw [dropAged]
    split <;> rfl
  rcases hw with rfl | rfl | rfl
  · exact ⟨dropAged_sublist now, haged⟩
  · exact ⟨trimmed_sublist now, (trimmed_fields now).2.1⟩
  · rw [rows_raisedFloor]
    refine ⟨trimmed_sublist now, ?_⟩
    rw [← (@trimmed_fields r db now).2.1, raisedFloor]
    split <;> rfl

theorem grows_of_mem_writes (hw : .index db' ∈ op.writes c r dir own db) :
    (db.Valid → db'.Valid) ∧ db.tombstones ⊆ db'.tombstones := by
  have hevolves : ∀ {fresh : Key → Prop}, Evolves fresh db db' →
      (db.Valid → db'.Valid) ∧ db.tombstones ⊆ db'.tombstones := fun h => ⟨h.valid, h.tombstones⟩
  have hcases := index_mem_writes hw
  cases op with
  | record e =>
    obtain rfl : db' = db.insertSeq e := hcases
    exact hevolves (evolves_insertSeq db e)
  | recordSeqDurable e =>
    rcases hcases with rfl | rfl
    · exact hevolves (evolves_insertSeq db _)
    · have hseq := evolves_insertSeq db (canonical c dir e)
      exact hevolves (hseq.trans ((evolves_markSynced _ _).mono fun _ h => h.elim))
  | setHidden job hidden byClient removedAt =>
    obtain rfl : db' = db.updateHidden job hidden byClient removedAt := hcases
    exact hevolves (evolves_updateHidden db job hidden byClient removedAt)
  | delete job =>
    obtain rfl : db' = (db.keysOf job).dedup.foldl replayTombstone db := hcases
    exact hevolves (@evolves_foldl_tombstones (fun _ => False) db _)
  | prune now =>
    obtain ⟨hsub, htombs⟩ := pruned_cases hcases
    exact ⟨valid_of_sublist hsub htombs, htombs.ge⟩

/-- **What an operation upholds is so after each of its writes.** -/
theorem Upholds.of_mem_writes
    (habs : ∀ x e, Q x → Q e → x.key = e.key → Q (x.absorb e))
    (h : op.Upholds c dir db Q) (hw : .index db' ∈ op.writes c r dir own db) :
    ∀ r ∈ db'.rows, Q r.entry := by
  have hcases := index_mem_writes hw
  cases op with
  | record e =>
    obtain rfl : db' = db.insertSeq e := hcases
    exact forall_rows_insertSeq (fun x hx => habs x e hx h.2) h.1 h.2
  | recordSeqDurable e =>
    have hseq := forall_rows_insertSeq (fun x hx => habs x _ hx h.2) h.1 h.2
    rcases hcases with rfl | rfl
    · exact hseq
    · exact forall_rows_markSynced _ hseq
  | setHidden job hidden byClient removedAt =>
    obtain rfl : db' = db.updateHidden job hidden byClient removedAt := hcases
    exact forall_rows_updateHidden h
  | delete job =>
    obtain rfl : db' = (db.keysOf job).dedup.foldl replayTombstone db := hcases
    exact forall_rows_foldl_tombstones _ h
  | prune now => exact fun r hr => h r ((pruned_cases hcases).1.subset hr)

theorem foldl_onTables_cases (ws : List Write) (db : Index) :
    ws.foldl Write.onTables db = db ∨ .index (ws.foldl Write.onTables db) ∈ ws := by
  induction ws generalizing db with
  | nil => exact .inl rfl
  | cons w ws ih =>
    rw [foldl_cons]
    rcases ih (w.onTables db) with h | h
    · cases w with
      | index db' => exact .inr (h.symm ▸ mem_cons_self)
      | append bytes => exact .inl h
      | rewrite bytes => exact .inl h
    · exact .inr (mem_cons_of_mem _ h)

/-- The tables when the operation stops. -/
def tablesAt (c : LogFormat) (r : Retention) (dir : LogDir) (own : Text) (db : Index)
    (op : LocalOp) (n : Nat) : Index := (op.written c r dir own db n).foldl Write.onTables db

theorem tablesAt_cases (n : Nat) : op.tablesAt c r dir own db n = db ∨
    .index (op.tablesAt c r dir own db n) ∈ op.writes c r dir own db :=
  (foldl_onTables_cases _ db).imp_right fun h => mem_of_mem_take h

theorem tablesAt_of_finished {n : Nat} (h : op.Finished c r dir own db n) :
    op.tablesAt c r dir own db n = op.tables c r dir own db := by
  rw [tablesAt, written, take_of_length_le h]
  rfl

theorem Upholds.tablesAt (habs : ∀ x e, Q x → Q e → x.key = e.key → Q (x.absorb e))
    (hdb : ∀ r ∈ db.rows, Q r.entry) (h : op.Upholds c dir db Q) (n : Nat) :
    ∀ x ∈ (op.tablesAt c r dir own db n).rows, Q x.entry := by
  rcases @tablesAt_cases c r dir own db op n
    with hn | hn
  · rwa [hn]
  · exact h.of_mem_writes habs hn

theorem Upholds.tables (habs : ∀ x e, Q x → Q e → x.key = e.key → Q (x.absorb e))
    (hdb : ∀ r ∈ db.rows, Q r.entry) (h : op.Upholds c dir db Q) :
    ∀ x ∈ (op.tables c r dir own db).rows, Q x.entry := by
  rw [← tablesAt_of_finished (n := (op.writes c r dir own db).length) le_rfl]
  exact h.tablesAt habs hdb _

theorem grows_tablesAt (n : Nat) : (db.Valid → (op.tablesAt c r dir own db n).Valid) ∧
    db.tombstones ⊆ (op.tablesAt c r dir own db n).tombstones := by
  rcases @tablesAt_cases c r dir own db op n
    with h | h
  · rw [h]
    exact ⟨id, Finset.Subset.refl _⟩
  · exact grows_of_mem_writes h

end LocalOp

/-! ### Passes -/

section Passes

variable {c : LogFormat} {s : HistorySync} {full : Bool} {floor : Int}
  {seen : List (Text × Nat)} {dir : LogDir}

/-- **A pass takes in what all lines say of a key** that they do not bury. -/
theorem saidByAll_of_mem_passEntries (hs : Followed c.toLogCodec floor seen dir s)
    (he : e ∈ passEntries c s full floor (logPaths dir)) (hk : e.key ∉ s.db.tombstones) :
    saidByAll c.toLogCodec floor (logPaths dir) e.key = some e ∧
      e.key ∉ (allLines (logPaths dir)).filterMap (tombstoneOf c.toLogCodec) := by
  obtain ⟨x, hx, rfl⟩ := mem_map.mp he
  obtain ⟨k, hmem, hmerged⟩ := mem_filterMap.mp ((mem_insertionSort _).mp hx)
  have hmem := (mem_filter.mp (mem_dedup.mp hmem)).2
  rw [Bool.and_eq_true, decide_eq_true_eq, decide_eq_true_eq] at hmem
  obtain ⟨hfloor, hnew⟩ := hmem
  have hkey := key_mergedValue hmerged
  rw [mergedValue_eq hs hfloor] at hmerged
  constructor
  · have hsnd := congrArg (Option.map Prod.snd) hmerged
    rw [Merging.located_summary, Merging.located_under] at hsnd
    rw [hkey]
    exact hsnd
  · intro hburied
    have hbury := congrArg tombstones (@bury_readDeltas _ full _ _ _ _ hs)
    have hall : x.2.key ∈ s.db.tombstones ∪
        ((allLines (logPaths dir)).filterMap (tombstoneOf c.toLogCodec)).toFinset :=
      Finset.mem_union_right _ (mem_toFinset.mpr hburied)
    rcases Finset.mem_union.mp (hbury.ge hall) with hall | hall
    · exact hk hall
    · exact hnew (hkey ▸ mem_toFinset.mp hall)

/-- What a pass has done that stops before its end. -/
def committed (c : LogFormat) (s : HistorySync) (full : Bool) (floor : Int)
    (files : List (Text × LogFile)) (n : Nat) : Index :=
  ((passBatches c s full floor files).take n).foldl Batch.apply s.db

theorem committed_all (c : LogFormat) (s : HistorySync) (full : Bool) (floor : Int)
    (files : List (Text × LogFile)) :
    committed c s full floor files (passBatches c s full floor files).length =
      (reconcile c.toLogCodec s full files floor).db := by
  rw [committed, take_length, foldl_passBatches]

theorem mem_passEntries_of_batch {files : List (Text × LogFile)} {es : List HistoryEntry}
    (hb : .entries es ∈ passBatches c s full floor files) (he : e ∈ es) :
    e ∈ passEntries c s full floor files := by
  rcases mem_append.mp hb with hb | hb
  · obtain ⟨ks, -, hks⟩ := mem_map.mp hb
    nomatch hks
  · obtain ⟨es', hes, hb⟩ := mem_map.mp hb
    obtain rfl := Batch.entries.inj hb
    have hflat : e ∈ (cut _ (passEntries c s full floor files) []).flatten :=
      mem_flatten.mpr ⟨es', hes, he⟩
    rwa [flatten_cut, nil_append] at hflat

theorem Batch.evolves (db : Index) (b : Batch) : Evolves (fun _ => True) db (b.apply db) := by
  cases b with
  | tombstones ks => exact evolves_foldl_tombstones db ks
  | entries es => exact evolves_foldl_entries db fun _ _ => trivial

theorem evolves_batches (bs : List Batch) (db : Index) :
    Evolves (fun _ => True) db (bs.foldl Batch.apply db) := by
  induction bs generalizing db with
  | nil => exact .refl db
  | cons b bs ih => exact (b.evolves db).trans (ih _)

theorem forall_rows_batches {Q : HistoryEntry → Prop}
    (habs : ∀ x e, Q x → Q e → x.key = e.key → Q (x.absorb e)) {bs : List Batch} {db : Index}
    (hv : db.Valid) (hdb : ∀ r ∈ db.rows, Q r.entry)
    (hbs : ∀ es, .entries es ∈ bs → ∀ e ∈ es, e.key ∉ db.tombstones → Q e) :
    ∀ r ∈ (bs.foldl Batch.apply db).rows, Q r.entry := by
  induction bs generalizing db with
  | nil => exact hdb
  | cons b bs ih =>
    refine ih ((b.evolves db).valid hv) ?_ fun es hes e he hk => ?_
    · cases b with
      | tombstones ks => exact LocalOp.forall_rows_foldl_tombstones ks hdb
      | entries es => exact LocalOp.forall_rows_replay hv habs hdb (hbs es mem_cons_self)
    · exact hbs es (mem_cons_of_mem _ hes) e he fun hmem => hk ((b.evolves db).tombstones hmem)

/-- **What holds of the rows and of what the lines say holds of the rows of a pass**,
wherever it stops. -/
theorem forall_rows_committed (hs : Followed c.toLogCodec floor seen dir s)
    {Q : HistoryEntry → Prop} (habs : ∀ x e, Q x → Q e → x.key = e.key → Q (x.absorb e))
    (hdb : ∀ r ∈ s.db.rows, Q r.entry)
    (hsaid : ∀ e, e.key ∉ s.db.tombstones →
      e.key ∉ (allLines (logPaths dir)).filterMap (tombstoneOf c.toLogCodec) →
        saidByAll c.toLogCodec floor (logPaths dir) e.key = some e → Q e) (n : Nat) :
    ∀ r ∈ (committed c s full floor (logPaths dir) n).rows, Q r.entry := by
  refine forall_rows_batches habs hs.valid hdb fun es hes e he hk => ?_
  obtain ⟨hspoken, hburied⟩ := saidByAll_of_mem_passEntries hs
    (mem_passEntries_of_batch (mem_of_mem_take hes) he) hk
  exact hsaid e hk hburied hspoken

theorem forall_rows_reconcile (hs : Followed c.toLogCodec floor seen dir s)
    {Q : HistoryEntry → Prop} (habs : ∀ x e, Q x → Q e → x.key = e.key → Q (x.absorb e))
    (hdb : ∀ r ∈ s.db.rows, Q r.entry)
    (hsaid : ∀ e, e.key ∉ s.db.tombstones →
      e.key ∉ (allLines (logPaths dir)).filterMap (tombstoneOf c.toLogCodec) →
        saidByAll c.toLogCodec floor (logPaths dir) e.key = some e → Q e) :
    ∀ r ∈ (reconcile c.toLogCodec s full (logPaths dir) floor).db.rows, Q r.entry := by
  rw [← committed_all]
  exact forall_rows_committed hs habs hdb hsaid _

end Passes

end Nzbd.History
