import Nzbd.Cluster.Calls

/-!
# No lost update

The calls on jobs read a row in one round trip and write it in another.  What
keeps them apart is the revision: a receipt is taken only if the row still has
the revision it was made from.

`RowHistory` is the chain of the changes behind a row.  Along it the revision
goes down by one, so a job and a revision name one content (`version_unique`), and
a row that is no longer the one a caller read has a higher revision
(`RowInv.moved`).  That makes a receipt stale, and one stale receipt aborts the
request it belongs to (`runRequests_stale`).
-/

namespace Nzbd

open List
open ControlStore (Fresh)
open ControlDb

/-! ### Histories -/

/-- A change that was made from the row it replaces, and raises it by one. -/
structure Applied.FromRow (c : Applied) : Prop where
  expected : c.expected = c.before.revision
  raised : c.after.revision = c.before.revision + 1
  job : c.after.jobId = c.before.jobId
  incarnation : c.after.incarnation = c.before.incarnation
  basis : ∀ b, c.basis = some b → b = c.before

/-- The changes that led to a row, the last one first. -/
def RowHistory : ControlRow → List Applied → Prop
  | _, [] => True
  | r, c :: cs => c.after = r ∧ c.FromRow ∧ RowHistory c.before cs

def pastRows (r : ControlRow) (cs : List Applied) : List ControlRow := r :: cs.map (·.before)

theorem RowHistory.revision_lt {r : ControlRow} {cs : List Applied} (h : RowHistory r cs) :
    ∀ v ∈ cs.map (·.before), v.revision < r.revision := by
  induction cs generalizing r with
  | nil => exact fun v hv => absurd hv not_mem_nil
  | cons c cs ih =>
    obtain ⟨rfl, hc, hrest⟩ := h
    intro v hv
    have hup : c.before.revision < c.after.revision := by rw [hc.raised]; exact Nat.lt_succ_self _
    rcases mem_cons.mp hv with rfl | hv
    · exact hup
    · exact (ih hrest v hv).trans hup

theorem RowHistory.unique {r : ControlRow} {cs : List Applied} (h : RowHistory r cs)
    {v w : ControlRow} (hv : v ∈ pastRows r cs) (hw : w ∈ pastRows r cs)
    (hrev : v.revision = w.revision) : v = w := by
  induction cs generalizing r with
  | nil =>
    obtain rfl := mem_singleton.mp hv
    exact (mem_singleton.mp hw).symm
  | cons c cs ih =>
    have hlt := h.revision_lt
    obtain ⟨-, -, hrest⟩ := h
    rcases mem_cons.mp hv with hv' | hv' <;> rcases mem_cons.mp hw with hw' | hw'
    · exact hv'.trans hw'.symm
    · exact absurd (hlt w hw') (by rw [← hrev, hv']; exact Nat.lt_irrefl _)
    · exact absurd (hlt v hv') (by rw [hrev, hw']; exact Nat.lt_irrefl _)
    · exact ih hrest hv' hw'

/-! ### The invariant -/

structure RowInv (db : ControlDb) : Prop where
  jobs : (rowIds db.jobs).Nodup
  current : ∀ r ∈ db.jobs, r ∈ db.versions
  history : ∀ r ∈ db.jobs, RowHistory r (db.changesOf r.jobId)
  version : ∀ v ∈ db.versions, ∃ r ∈ db.jobs, r.jobId = v.jobId ∧
    v ∈ pastRows r (db.changesOf r.jobId)
  known : ∀ c ∈ db.changes, c.before.jobId ∈ rowIds db.jobs
  receipt : ∀ commandId r, db.commands commandId = some r → ∃ c ∈ db.changes,
    c.before.jobId = r.jobId ∧ c.expected = r.expectedRevision ∧
      c.after.revision = r.appliedRevision

theorem RowInv.of_fresh {db : ControlDb} (h : Fresh db) : RowInv db where
  jobs := h.jobs
  current := by
    rw [h.versions]
    exact fun r hr => hr
  history := by
    intro r _
    rw [changesOf, h.changes]
    trivial
  version := by
    intro v hv
    rw [h.versions] at hv
    exact ⟨v, hv, rfl, mem_cons_self⟩
  known := by
    rw [h.changes]
    exact fun c hc => absurd hc not_mem_nil
  receipt := by
    intro commandId r hr
    rw [h.commands] at hr
    cases hr

variable {db u : ControlDb}

theorem RowInv.moved (h : RowInv db) {v : ControlRow} (hv : v ∈ db.versions) :
    ∃ r ∈ db.jobs, r.jobId = v.jobId ∧ (v = r ∨ v.revision < r.revision) := by
  obtain ⟨r, hr, hid, hpast⟩ := h.version v hv
  refine ⟨r, hr, hid, ?_⟩
  rcases mem_cons.mp hpast with rfl | hpast
  · exact .inl rfl
  · exact .inr ((h.history r hr).revision_lt v hpast)

theorem RowInv.version_unique (h : RowInv db) {v w : ControlRow} (hv : v ∈ db.versions)
    (hw : w ∈ db.versions) (hid : v.jobId = w.jobId) (hrev : v.revision = w.revision) : v = w := by
  obtain ⟨r, hr, hrid, hpast⟩ := h.version v hv
  obtain ⟨q, hq, hqid, hpast'⟩ := h.version w hw
  obtain rfl := row_unique h.jobs hr hq (by rw [hrid, hqid, hid])
  exact (h.history r hr).unique hpast hpast' hrev

/-! ### One lemma a statement -/

theorem RowInv.sameJobs (h : RowInv db) (hs : SameJobs db u) : RowInv u := by
  obtain ⟨hv, hj, hc, hcmd⟩ := hs
  have hof : ∀ id, u.changesOf id = db.changesOf id := fun id => by
    rw [changesOf, hc, changesOf]
  refine ⟨hj ▸ h.jobs, ?_, ?_, ?_, ?_, ?_⟩
  · rw [hj, hv]
    exact h.current
  · intro r hr
    rw [hof]
    exact h.history r (hj ▸ hr)
  · intro v hv'
    obtain ⟨r, hr, hid, hpast⟩ := h.version v (hv ▸ hv')
    exact ⟨r, hj ▸ hr, hid, by rw [hof]; exact hpast⟩
  · rw [hc, hj]
    exact h.known
  · intro commandId r hr
    rw [hcmd] at hr
    rw [hc]
    exact h.receipt commandId r hr

theorem RowInv.change (h : RowInv db) {row after : ControlRow} (hrow : row ∈ db.jobs)
    {f : ControlRow → ControlRow} {expected : Nat} {basis : Option ControlRow}
    (hfrom : Applied.FromRow ⟨expected, basis, row, after⟩) (hafter : f row = after)
    (hother : ∀ r, r.jobId ≠ row.jobId → f r = r)
    (hjobs : u.jobs = db.jobs.map f) (hv : u.versions = after :: db.versions)
    (hc : u.changes = ⟨expected, basis, row, after⟩ :: db.changes)
    (hcmd : ∀ commandId r, u.commands commandId = some r → db.commands commandId = some r ∨
      r.jobId = row.jobId ∧ r.expectedRevision = expected ∧ r.appliedRevision = after.revision) :
    RowInv u := by
  have hfid : ∀ r ∈ db.jobs, (f r).jobId = r.jobId := by
    intro r hr
    by_cases hsame : r.jobId = row.jobId
    · obtain rfl := row_unique h.jobs hr hrow hsame
      rw [hafter]
      exact hfrom.job
    · rw [hother r hsame]
  have hkeys : rowIds u.jobs = rowIds db.jobs := by
    rw [hjobs, rowIds, map_map]
    exact map_congr_left hfid
  have hofrow : u.changesOf row.jobId = ⟨expected, basis, row, after⟩ :: db.changesOf row.jobId := by
    rw [changesOf, hc, filter_cons, if_pos (decide_eq_true rfl)]
    rfl
  have hofother : ∀ id, id ≠ row.jobId → u.changesOf id = db.changesOf id := by
    intro id hne
    rw [changesOf, hc, filter_cons, if_neg (by simpa using Ne.symm hne)]
    rfl
  refine ⟨hkeys ▸ h.jobs, ?_, ?_, ?_, ?_, ?_⟩
  · intro r hr
    rw [hjobs] at hr
    obtain ⟨q, hq, rfl⟩ := mem_map.mp hr
    rw [hv]
    by_cases hsame : q.jobId = row.jobId
    · obtain rfl := row_unique h.jobs hq hrow hsame
      rw [hafter]
      exact mem_cons_self
    · rw [hother q hsame]
      exact mem_cons_of_mem _ (h.current q hq)
  · intro r hr
    rw [hjobs] at hr
    obtain ⟨q, hq, rfl⟩ := mem_map.mp hr
    rw [hfid q hq]
    by_cases hsame : q.jobId = row.jobId
    · obtain rfl := row_unique h.jobs hq hrow hsame
      rw [hofrow, hafter]
      exact ⟨rfl, hfrom, h.history q hq⟩
    · rw [hother q hsame, hofother _ hsame]
      exact h.history q hq
  · intro v hv'
    rw [hv] at hv'
    rcases mem_cons.mp hv' with rfl | hv'
    · refine ⟨v, ?_, rfl, mem_cons_self⟩
      rw [hjobs, ← hafter]
      exact mem_map_of_mem hrow
    · obtain ⟨q, hq, hid, hpast⟩ := h.version v hv'
      refine ⟨f q, hjobs ▸ mem_map_of_mem hq, (hfid q hq).trans hid, ?_⟩
      rw [hfid q hq]
      by_cases hsame : q.jobId = row.jobId
      · obtain rfl := row_unique h.jobs hq hrow hsame
        rw [hofrow]
        exact mem_cons_of_mem _ hpast
      · rw [hother q hsame, hofother _ hsame]
        exact hpast
  · intro c hc'
    rw [hc] at hc'
    rw [hkeys]
    rcases mem_cons.mp hc' with rfl | hc'
    · exact mem_map_of_mem hrow
    · exact h.known c hc'
  · intro commandId r hr
    rw [hc]
    rcases hcmd commandId r hr with hold | ⟨hid, hexp, happ⟩
    · obtain ⟨c, hc', hall⟩ := h.receipt commandId r hold
      exact ⟨c, mem_cons_of_mem _ hc', hall⟩
    · exact ⟨_, mem_cons_self, hid.symm, hexp.symm, happ.symm⟩

theorem RowInv.insertPublication {p : PublicationReceipt} (h : RowInv db)
    (hu : insertPublication p db = .ok (u, ())) : RowInv u := by
  obtain ⟨l, row, -, -, hrow, hid, hrev, hu⟩ := insertPublication_ok hu
  rcases hu with ⟨-, rfl⟩ | ⟨-, rfl⟩
  · exact h.sameJobs ⟨rfl, rfl, rfl, rfl⟩
  · refine h.change hrow ?_ ?_ ?_ rfl rfl rfl ?_
    · exact ⟨hrev.symm, rfl, rfl, rfl, fun b hb => nomatch hb⟩
    · rw [if_pos hid]
    · exact fun r hne => if_neg fun he => hne (he.trans hid.symm)
    · exact fun commandId r hr => .inl hr

theorem RowInv.insertCommand {commandId : Text} {id : JobId} {expected applied : Nat} {next : Job}
    {deleted : Bool} {basis : Option ControlRow} (h : RowInv db)
    (happlied : applied = expected + 1) (hb : Basis db id expected basis)
    (hu : insertCommand commandId id expected applied next deleted basis db = .ok (u, ())) :
    RowInv u := by
  obtain ⟨row, hrow, hid, hrev, -, rfl⟩ := insertCommand_ok h.jobs hu
  refine h.change hrow ?_ ?_ ?_ rfl rfl rfl ?_
  · refine ⟨hrev.symm, happlied.trans (by rw [hrev]), rfl, rfl, fun b hb' => ?_⟩
    -- the row has the revision of the one that was read, so it is that one
    obtain ⟨hmem, hbid, hbrev⟩ := hb b hb'
    exact h.version_unique hmem (h.current row hrow) (hbid.trans hid.symm) (hbrev.trans hrev.symm)
  · rw [if_pos ⟨hid, hrev⟩]
  · exact fun r hne => if_neg fun he => hne (he.1.trans hid.symm)
  · intro cid r hr
    change Function.update db.commands commandId _ cid = some r at hr
    rw [Function.update_apply] at hr
    split at hr
    · obtain rfl := Option.some.inj hr
      exact .inr ⟨hid.symm, rfl, rfl⟩
    · exact .inl hr

theorem RowInv.insertJob {row : ControlRow} (h : RowInv db)
    (hu : insertJob row db = .ok (u, ())) : RowInv u := by
  have hn := nodup_insertJob h.jobs hu
  obtain ⟨hnew, rfl⟩ := insertJob_ok hu
  have hnone : db.changesOf row.jobId = [] := by
    refine filter_eq_nil_iff.mpr fun c hc he => ?_
    exact hnew (of_decide_eq_true he ▸ h.known c hc)
  refine ⟨hn, ?_, ?_, ?_, ?_, h.receipt⟩
  · intro r hr
    rcases mem_append.mp hr with hr | hr
    · exact mem_cons_of_mem _ (h.current r hr)
    · exact mem_singleton.mp hr ▸ mem_cons_self
  · intro r hr
    rcases mem_append.mp hr with hr | hr
    · exact h.history r hr
    · obtain rfl := mem_singleton.mp hr
      change RowHistory r (db.changesOf r.jobId)
      rw [hnone]
      trivial
  · intro v hv
    rcases mem_cons.mp hv with rfl | hv
    · exact ⟨v, mem_append_right _ (mem_singleton_self _), rfl, mem_cons_self⟩
    · obtain ⟨r, hr, hid, hpast⟩ := h.version v hv
      exact ⟨r, mem_append_left _ hr, hid, hpast⟩
  · intro c hc
    change c.before.jobId ∈ (db.jobs ++ [row]).map (·.jobId)
    rw [map_append]
    exact mem_append_left _ (h.known c hc)

theorem rowInv_preserved : Preserved RowInv where
  nodup h := h.jobs
  current h := h.current
  upsert h hu := h.sameJobs (sameJobs_upsertLease hu)
  renew h hu := h.sameJobs (sameJobs_renewLease hu)
  release h hu := h.sameJobs (sameJobs_releaseLease hu)
  publish h hu := h.insertPublication hu
  command h happlied hb hu := h.insertCommand happlied hb hu
  insert h hu := h.insertJob hu
  begin h hu := h.sameJobs (sameJobs_insertScript hu)
  finish h hu := h.sameJobs (sameJobs_finishRow hu)

/-! ### Requests -/

/-- The row has moved on since the statement was made. -/
def RequestStatement.Stale (db : ControlDb) : RequestStatement → Prop
  | .insert row => row.jobId ∈ rowIds db.jobs
  | .receipt _ id expected _ _ _ => ∃ r ∈ db.jobs, r.jobId = id ∧ expected < r.revision

theorem Grows.revision_le (h : Grows db u) {r : ControlRow} (hr : r ∈ db.jobs) :
    ∃ r' ∈ u.jobs, r'.jobId = r.jobId ∧ r.revision ≤ r'.revision := by
  obtain ⟨r', hr', hid, -, hrev⟩ := h.rows r hr
  have hlen : (db.changesOf r.jobId).length ≤ (u.changesOf r.jobId).length :=
    (h.changes.filter _).length_le
  exact ⟨r', hr', hid, by omega⟩

theorem RequestStatement.Stale.mono {s : RequestStatement} (h : s.Stale db) (hg : Grows db u) :
    s.Stale u := by
  cases s with
  | insert row =>
    obtain ⟨r, hr, hid⟩ := mem_map.mp h
    obtain ⟨r', hr', hid', -⟩ := hg.revision_le hr
    exact mem_map.mpr ⟨r', hr', hid'.trans hid⟩
  | receipt commandId id expected next deleted basis =>
    obtain ⟨r, hr, hid, hlt⟩ := h
    obtain ⟨r', hr', hid', hle⟩ := hg.revision_le hr
    exact ⟨r', hr', hid'.trans hid, by omega⟩

theorem runRequest_ok {s : RequestStatement} (hn : (rowIds db.jobs).Nodup)
    (h : db.runRequest s = .ok u) : ¬s.Stale db ∧ Grows db u ∧ (rowIds u.jobs).Nodup := by
  cases s with
  | insert row =>
    obtain ⟨r, hr, rfl⟩ := ok_of_map h
    exact ⟨(insertJob_ok hr).1, grows_insertJob hr, nodup_insertJob hn hr⟩
  | receipt commandId id expected next deleted basis =>
    obtain ⟨r, hr, rfl⟩ := ok_of_map h
    refine ⟨?_, grows_insertCommand hn rfl hr, nodup_insertCommand hn hr⟩
    rintro ⟨q, hq, hid, hlt⟩
    obtain ⟨row, hrow, hrid, hrev, -⟩ := insertCommand_ok hn hr
    obtain rfl := row_unique hn hq hrow (hid.trans hrid.symm)
    omega

/-- **One stale row aborts the request.** -/
theorem runRequests_stale {ss : List RequestStatement} (hn : (rowIds db.jobs).Nodup)
    (h : ∃ s ∈ ss, s.Stale db) (r : ControlDb × Unit) : runRequests ss db ≠ .ok r := by
  induction ss generalizing db with
  | nil => exact fun _ => absurd h (by simp)
  | cons s ss ih =>
    intro hok
    obtain ⟨mid, hmid, hrest⟩ := ok_of_bind hok
    obtain ⟨hfresh, hg, hn'⟩ := runRequest_ok hn hmid
    obtain ⟨q, hq, hstale⟩ := h
    rcases mem_cons.mp hq with rfl | hq
    · exact hfresh hstale
    · exact ih hn' ⟨q, hq, hstale.mono hg⟩ hrest

/-! ### The store -/

open ControlStore (Reached readChanges)
open Interleave (Sys Prog)

/-- What holds at every moment, whoever calls. -/
structure NoLostUpdate (D : Digests) (s : Sys ControlDb Answer) : Prop where
  /-- Every change was made from the row it replaces and raised it by one. -/
  history : ∀ r ∈ s.shared.jobs, RowHistory r (s.shared.changesOf r.jobId)
  /-- What a caller has read is still the row, or the revision has gone up. -/
  moved : ∀ v ∈ s.shared.versions, ∃ r ∈ s.shared.jobs, r.jobId = v.jobId ∧
    (v = r ∨ v.revision < r.revision)
  /-- A job and a revision name one content. -/
  version : ∀ v ∈ s.shared.versions, ∀ w ∈ s.shared.versions, v.jobId = w.jobId →
    v.revision = w.revision → v = w
  /-- The next step keeps every row, and raises it by the number of its changes. -/
  grows : ∀ a, Grows s.shared (s.after a).shared
  /-- A receipt names a change that was made. -/
  receipt : ∀ commandId r, s.shared.commands commandId = some r → ∃ c ∈ s.shared.changes,
    c.before.jobId = r.jobId ∧ c.expected = r.expectedRevision ∧
      c.after.revision = r.appliedRevision
  /-- A command that starts when its id has a receipt reports its revision. -/
  repeated : ∀ i commandId id expected next deleted now r,
    s.running[i]? = some (ControlStore.applyCommand commandId id expected next deleted now) →
    s.shared.commands commandId = some r →
    s.after (.run i) =
      ⟨s.shared, s.running.set i (.ret (.mutation (.duplicate r.appliedRevision)))⟩
  /-- No command id is taken twice. -/
  once : ∀ commandId r id expected applied next deleted basis u,
    s.shared.commands commandId = some r →
    insertCommand commandId id expected applied next deleted basis s.shared ≠ .ok (u, ())
  /-- A request with a stale row changes nothing. -/
  stale : ∀ i ss, s.running[i]? = some (readChanges D [] ss) → (∃ q ∈ ss, q.Stale s.shared) →
    (s.after (.run i)).shared = s.shared

/-- **No update is lost.** -/
theorem noLostUpdate_of_reached {D : Digests} {s : Sys ControlDb Answer} (h : Reached D s) :
    NoLostUpdate D s := by
  have hinv := rowInv_preserved.reached (fun _ => RowInv.of_fresh) h
  refine ⟨hinv.history, fun v hv => hinv.moved hv, fun v hv w hw => hinv.version_unique hv hw,
    rowInv_preserved.grows (fun _ => RowInv.of_fresh) h, hinv.receipt, ?_, ?_, ?_⟩
  · intro i commandId id expected next deleted now r hi hr
    change s.advance i = _
    rw [Sys.advance, hi]
    simp only [ControlStore.applyCommand, ControlStore.applyCommandThen, Prog.query, hr, id_eq]
  · intro commandId r id expected applied next deleted basis u hr hok
    obtain ⟨row, -, -, -, hnone, -⟩ := insertCommand_ok hinv.jobs hok
    rw [hr] at hnone
    cases hnone
  · intro i ss hi hstale
    have hne : ss ≠ [] := by
      rintro rfl
      exact absurd hstale (by simp)
    change (s.advance i).shared = s.shared
    rw [Sys.advance, hi]
    simp only [readChanges, if_neg hne, Prog.transact, Prog.exec]
    split
    next r hr => exact absurd hr (runRequests_stale hinv.jobs hstale r)
    next => rfl

/-! ### A command that is sent twice -/

def deleteOne : Prog ControlDb Answer :=
  ControlStore.applyCommand (text "delete-1") 1 1
    (QueueState.newJob 864000 1 .nzb (text "one") (text "one") none 0 .queued) true 0

def sentTwice : Sys ControlDb Answer :=
  ((⟨storeOfOne, []⟩ : Sys ControlDb Answer).after (.begin deleteOne)).after (.begin deleteOne)

theorem reached_sentTwice : Reached constDigests sentTwice :=
  have h0 : Reached constDigests ⟨storeOfOne, []⟩ := .start ⟨fresh_storeOfOne, rfl⟩
  (h0.begin (.applyCommand _ _ _ _ _ _)).begin (.applyCommand _ _ _ _ _ _)

def runAll (s : Sys ControlDb Answer) (js : List Nat) : Sys ControlDb Answer :=
  js.foldl (fun s j => s.after (.run j)) s

/-- One after the other: the second call reports the revision of the first. -/
theorem noLostUpdate_sentTwice :
    (runAll sentTwice [0, 0, 1]).running.map Prog.answer =
      [some (.mutation (.applied 2)), some (.mutation (.duplicate 2))] ∧
    NoLostUpdate constDigests (runAll sentTwice [0, 0, 1]) :=
  ⟨by decide +kernel, noLostUpdate_of_reached (((reached_sentTwice.run 0).run 0).run 1)⟩

/-- Both look their receipt up before either is taken, and the second one answers
that it lost a race. -/
theorem repeat_conflicts :
    ¬ ∀ (D : Digests) (s : Sys ControlDb Answer), Reached D s →
      ∀ (i : Nat) commandId id expected next deleted now,
      s.running[i]? = some (ControlStore.applyCommand commandId id expected next deleted now) →
      ∀ js (o : MutationOutcome) r, (runAll s js).running[i]? = some (.ret (.mutation o)) →
      (runAll s js).shared.commands commandId = some r →
      o = .applied r.appliedRevision ∨ o = .duplicate r.appliedRevision := by
  intro h
  have hanswer : (runAll sentTwice [0, 1, 0, 1]).running[1]?.bind Prog.answer =
      some (.mutation .conflict) := by decide +kernel
  obtain ⟨p, hp, hret⟩ := Option.bind_eq_some_iff.mp hanswer
  obtain rfl := Prog.eq_ret_of_answer hret
  have hreceipt : (runAll sentTwice [0, 1, 0, 1]).shared.commands (text "delete-1") =
      some ⟨1, 1, 2⟩ := by decide +kernel
  rcases h _ _ reached_sentTwice 1 _ _ _ _ _ _ rfl _ _ _ hp hreceipt with ho | ho
  · nomatch ho
  · nomatch ho

end Nzbd
