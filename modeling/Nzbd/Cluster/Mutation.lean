import Nzbd.Cluster.Control
import Nzbd.Engine.Node

/-!
# A request and its commit

A request of the API runs in the queue of the authority first.  Then the rows it
has changed are committed, and the queue is made of the live rows again.

What comes back is sorted by id, with fresh totals.  The contents survive:
`liveIntent_commitJobDelta` says that the commit leaves in each row what the
request has left in the queue.  The order does not, as there is no column for
it: `survives_iff` says that the queue is what it was right after the request
only if it was in the order of the ids, with totals that are up to date.  A job
that was moved is back in its old place (`moveTop_undone`).
-/

namespace Nzbd

open List
open Engine (Owner World Msg)
open Engine.Node (calmWorld dayConfig)

variable (digest : Job → Nat)

def liveIntent (rows : List ControlRow) (id : JobId) : Option Job :=
  (findRow rows id).bind fun r => if r.deleted then none else some r.intent

structure Agrees (rows : List ControlRow) (s : QueueState) : Prop where
  rowIds : (rowIds rows).Nodup
  jobIds : (s.jobs.map (·.id)).Nodup
  live : ∀ id, liveIntent rows id = s.job id

/-- Commit what a request has changed, and start over from the rows. -/
def commitMutationDelta (w : World) (rows : List ControlRow) (before : QueueState) (o : Owner) :
    Except Text (List ControlRow × Owner) :=
  (commitJobDelta digest rows (delta before o.state)).map fun rows =>
    (rows, o.adoptReplicatedAuthority w (loadJobs rows))

variable {rows rows' : List ControlRow}

theorem commitMutationDelta_ok {w : World} {before : QueueState}
    {o : Owner} (h : commitJobDelta digest rows (delta before o.state) = .ok rows') :
    commitMutationDelta digest w rows before o =
      .ok (rows', o.adoptReplicatedAuthority w (loadJobs rows')) := by
  rw [commitMutationDelta, h]
  rfl

/-- The messages of a request, each with the world it finds. -/
def request (lower : Text → Text) (o : Owner) (msgs : List (World × Msg)) : Owner :=
  msgs.foldl (fun o m => o.step lower m.1 m.2) o

structure InOrder (jobs : List Job) : Prop where
  ids : jobs.Pairwise fun a b => a.id < b.id
  totals : ∀ j ∈ jobs, recomputeJobTotals j = j

/-! ### What a commit leaves in the rows -/

def Statement.target : Statement → JobId
  | .insert row => row.jobId
  | .receipt id .. => id

def Statement.leaves : Statement → Option Job
  | .insert row => if row.deleted then none else some row.intent
  | .receipt _ _ _ next deleted => if deleted then none else some next

theorem liveIntent_exec {s : Statement} (hn : (rowIds rows).Nodup)
    (h : s.exec rows = .ok rows') (id : JobId) :
    liveIntent rows' id = if id = s.target then s.leaves else liveIntent rows id := by
  cases s with
  | insert row =>
    rw [Statement.exec] at h
    split at h
    · exact absurd h (by simp)
    next hnew =>
    obtain rfl := Except.ok.inj h
    have hfind : findRow (rows ++ [row]) id =
        (findRow rows id).or (if row.jobId = id then some row else none) := by
      rw [findRow, find?_append]
      congr 1
      by_cases he : row.jobId = id <;> simp [he]
    rw [liveIntent, hfind]
    by_cases he : row.jobId = id
    · have hnone : findRow rows id = none := by
        rw [← Option.not_isSome_iff_eq_none, findRow_isSome, ← he]
        exact hnew
      rw [hnone, if_pos he]
      exact (if_pos he.symm).symm
    · rw [if_neg he, Option.or_none]
      exact (if_neg (Ne.symm he)).symm
  | receipt target expected applied next deleted =>
    rw [Statement.exec] at h
    split at h
    next hany =>
      obtain rfl := Except.ok.inj h
      let g : ControlRow → ControlRow := fun r =>
        if r.jobId = target ∧ r.revision = expected then
          { r with revision := applied, intent := next, deleted := deleted } else r
      have hg : ∀ r, (g r).jobId = r.jobId := by
        intro r
        simp only [g]
        split <;> rfl
      have hfind : findRow (rows.map g) id = (findRow rows id).map g := by
        rw [findRow, find?_map, findRow]
        congr 2
        funext r
        simp only [Function.comp_apply, hg]
      change liveIntent (rows.map g) id = _
      rw [liveIntent, hfind]
      by_cases he : id = target
      · obtain rfl := he
        obtain ⟨r, hr, hm⟩ := any_eq_true.mp hany
        simp only [Bool.and_eq_true, decide_eq_true_eq] at hm
        have hrow : findRow rows id = some r := by
          rw [← hm.1]
          exact find?_key_eq hn hr
        rw [hrow, Option.map_some, Option.bind_some]
        simp only [g, if_pos hm]
        exact (if_pos rfl).symm
      · refine Eq.trans ?_ (if_neg he).symm
        rw [liveIntent]
        cases hrow : findRow rows id with
        | none => rfl
        | some r =>
          have hid : r.jobId = id := by simpa using find?_some hrow
          have hsame : g r = r := if_neg fun hm => he (hid ▸ hm.1)
          rw [Option.map_some, hsame]
    next => exact absurd h (by simp)

theorem statementFor_cases {rows : List ControlRow} {c : Change} {ss : List Statement}
    (h : statementFor digest rows c = .ok ss) :
    ss = [] ∧ liveIntent rows c.1 = c.2 ∨ ∃ s, ss = [s] ∧ s.target = c.1 ∧ s.leaves = c.2 := by
  obtain ⟨id, desired⟩ := c
  obtain ⟨v, hv, h⟩ := ok_of_bind h
  obtain rfl := i64Value_ok hv
  cases hrow : findRow rows v with
  | none =>
    cases desired with
    | none => rw [hrow] at h; exact absurd h (by simp)
    | some intent =>
      rw [hrow] at h
      obtain rfl := Except.ok.inj h
      exact .inr ⟨_, rfl, rfl, rfl⟩
  | some row =>
    rw [hrow] at h
    simp only at h
    split at h
    next hsame =>
      obtain rfl := Except.ok.inj h
      refine .inl ⟨rfl, ?_⟩
      rw [liveIntent, hrow, Option.bind_some, hsame.1]
      cases desired with
      | none => rfl
      | some intent =>
        have hintent : intent = row.intent := by simpa using hsame.2
        simp [hintent]
    next =>
      obtain ⟨expected, -, h⟩ := ok_of_bind h
      obtain ⟨applied, -, h⟩ := ok_of_bind h
      obtain rfl := Except.ok.inj h
      refine .inr ⟨_, rfl, rfl, ?_⟩
      cases desired <;> rfl

theorem txn_append (rows : List ControlRow) (ss ts : List Statement) :
    txn rows (ss ++ ts) = (txn rows ss).bind fun rows => txn rows ts := by
  induction ss generalizing rows with
  | nil => rfl
  | cons s ss ih =>
    rw [cons_append, txn, txn]
    cases s.exec rows with
    | error e => rfl
    | ok rows => exact ih rows

/-- The statements, from any table that has not touched the rows of the changes
yet. -/
theorem liveIntent_txn {rows cur rows' : List ControlRow} {changes : List Change}
    {ss : List Statement} (hss : statements digest rows changes = .ok ss)
    (hchanges : (changes.map (·.1)).Nodup) (hn : (rowIds cur).Nodup)
    (hcur : ∀ c ∈ changes, liveIntent cur c.1 = liveIntent rows c.1)
    (h : txn cur ss = .ok rows') :
    (∀ c ∈ changes, liveIntent rows' c.1 = c.2) ∧
      ∀ id, id ∉ changes.map (·.1) → liveIntent rows' id = liveIntent cur id := by
  induction changes generalizing cur ss with
  | nil =>
    obtain rfl := Except.ok.inj hss
    obtain rfl := Except.ok.inj h
    exact ⟨by simp, fun _ _ => rfl⟩
  | cons c changes ih =>
    obtain ⟨s, hc, hss⟩ := ok_of_bind hss
    obtain ⟨t, ht, hss⟩ := ok_of_bind hss
    obtain rfl := Except.ok.inj hss
    rw [map_cons, nodup_cons] at hchanges
    rw [txn_append] at h
    obtain ⟨mid, hmid, h⟩ := ok_of_bind h
    have hmidn : (rowIds mid).Nodup := (identities_txn hmid hn).2
    -- what the statement of the first change has done
    have hfirst : liveIntent mid c.1 = c.2 ∧
        ∀ id, id ≠ c.1 → liveIntent mid id = liveIntent cur id := by
      rcases statementFor_cases digest hc with ⟨rfl, hlive⟩ | ⟨s, rfl, htarget, hleaves⟩
      · obtain rfl := Except.ok.inj hmid
        exact ⟨(hcur c mem_cons_self).trans hlive, fun _ _ => rfl⟩
      · obtain ⟨mid', hexec, hmid⟩ := ok_of_bind hmid
        obtain rfl := Except.ok.inj hmid
        refine ⟨?_, fun id hid => ?_⟩
        · rw [liveIntent_exec hn hexec, if_pos htarget.symm, hleaves]
        · rw [liveIntent_exec hn hexec, htarget, if_neg hid]
    obtain ⟨hthese, hothers⟩ := ih ht hchanges.2 hmidn (by
      intro d hd
      rw [hfirst.2 d.1 fun he => hchanges.1 (mem_map.mpr ⟨d, hd, he⟩)]
      exact hcur d (mem_cons_of_mem _ hd)) h
    refine ⟨?_, ?_⟩
    · intro d hd
      rcases mem_cons.mp hd with rfl | hd
      · rw [hothers _ hchanges.1]
        exact hfirst.1
      · exact hthese d hd
    · intro id hid
      rw [map_cons, mem_cons, not_or] at hid
      rw [hothers id hid.2, hfirst.2 id hid.1]

/-- **A commit leaves each change in its row, and every other row alone.** -/
theorem liveIntent_commitJobDelta {changes : List Change}
    (hn : (rowIds rows).Nodup) (hchanges : (changes.map (·.1)).Nodup)
    (h : commitJobDelta digest rows changes = .ok rows') :
    (∀ c ∈ changes, liveIntent rows' c.1 = c.2) ∧
      ∀ id, id ∉ changes.map (·.1) → liveIntent rows' id = liveIntent rows id := by
  obtain ⟨ss, hss, h⟩ := ok_of_bind h
  exact liveIntent_txn digest hss hchanges hn (fun _ _ => rfl) h

/-! ### The queue that comes back -/

variable {digest}

theorem liveIntent_delta {before after : QueueState}
    (h : Agrees rows before) (hc : commitJobDelta digest rows (delta before after) = .ok rows')
    (id : JobId) : liveIntent rows' id = after.job id := by
  obtain ⟨hthese, hothers⟩ := liveIntent_commitJobDelta digest h.rowIds (nodup_delta _ _) hc
  by_cases hid : id ∈ (delta before after).map (·.1)
  · obtain ⟨c, hmem, rfl⟩ := mem_map.mp hid
    rw [hthese c hmem]
    obtain ⟨i, -, hi⟩ := mem_filterMap.mp hmem
    rw [Option.ite_none_left_eq_some, Option.some.injEq] at hi
    rw [← hi.2]
  · rw [hothers id hid, h.live]
    by_contra hne
    refine hid (mem_map.mpr ⟨(id, after.job id), ?_, rfl⟩)
    refine mem_filterMap.mpr ⟨id, ?_, if_neg hne⟩
    -- a job that is in neither queue has not changed
    rw [mem_dedup, map_append, mem_append]
    by_contra hnot
    rw [not_or] at hnot
    have hnone : ∀ s : QueueState, id ∉ s.jobs.map (·.id) → s.job id = none := by
      intro s hs
      refine find?_eq_none.mpr fun j hj he => hs ?_
      exact (of_decide_eq_true he : j.id = id) ▸ mem_map_of_mem hj
    exact hne ((hnone _ hnot.1).trans (hnone _ hnot.2).symm)

theorem loadJobs_inOrder {rows : List ControlRow} (hn : (rowIds rows).Nodup)
    (hid : ∀ id j, liveIntent rows id = some j → j.id = id) :
    (loadJobs rows).Pairwise (fun a b => a.id < b.id) ∧
      ∀ j, j ∈ loadJobs rows ↔ liveIntent rows j.id = some j := by
  have hlive : ∀ r ∈ rows, r.deleted = false → liveIntent rows r.jobId = some r.intent := by
    intro r hr hdel
    have hfind : findRow rows r.jobId = some r := find?_key_eq hn hr
    rw [liveIntent, hfind, Option.bind_some, if_neg (by simp [hdel])]
  have hmem : ∀ r, r ∈ (rows.filter fun r => !r.deleted).insertionSort (·.jobId ≤ ·.jobId) ↔
      r ∈ rows ∧ r.deleted = false := by
    intro r
    simp [mem_insertionSort]
  refine ⟨?_, fun j => ⟨fun hj => ?_, fun hj => ?_⟩⟩
  · have hsorted : ((rows.filter fun r => !r.deleted).insertionSort
        (·.jobId ≤ ·.jobId)).Pairwise (fun a b => a.jobId ≤ b.jobId) :=
      pairwise_insertionSort _ _
    have hdistinct : ((rows.filter fun r => !r.deleted).insertionSort
        (·.jobId ≤ ·.jobId)).Pairwise (fun a b => a.jobId ≠ b.jobId) := by
      refine pairwise_map.mp (((perm_insertionSort _ _).map _).nodup_iff.mpr ?_)
      exact hn.sublist (filter_sublist.map _)
    refine pairwise_map.mpr ((hsorted.and hdistinct).imp_of_mem ?_)
    intro a b ha hb hab
    have ha' := (hmem a).mp ha
    have hb' := (hmem b).mp hb
    rw [hid _ _ (hlive a ha'.1 ha'.2), hid _ _ (hlive b hb'.1 hb'.2)]
    exact lt_of_le_of_ne hab.1 hab.2
  · obtain ⟨r, hr, rfl⟩ := mem_map.mp hj
    have hr' := (hmem r).mp hr
    have hl := hlive r hr'.1 hr'.2
    rw [hid _ _ hl]
    exact hl
  · rw [liveIntent, Option.bind_eq_some_iff] at hj
    obtain ⟨r, hr, hj⟩ := hj
    rw [Option.ite_none_left_eq_some, Option.some.injEq] at hj
    refine mem_map.mpr ⟨r, (hmem r).mpr ⟨mem_of_find?_eq_some hr, ?_⟩, hj.2⟩
    simpa using hj.1

theorem eq_of_inOrder {l m : List Job} (hl : l.Pairwise fun a b => a.id < b.id)
    (hm : m.Pairwise fun a b => a.id < b.id) (h : ∀ j, j ∈ l ↔ j ∈ m) : l = m := by
  have hperm : l.Perm m := by
    refine (perm_ext_iff_of_nodup ?_ ?_).mpr h
    · exact hl.imp fun hab he => absurd (congrArg Job.id he) (ne_of_lt hab)
    · exact hm.imp fun hab he => absurd (congrArg Job.id he) (ne_of_lt hab)
  exact hperm.eq_of_pairwise (fun a b _ _ hab hba => absurd hba (lt_asymm hab)) hl hm

/-- **What survives a commit.**  The queue is as the request has left it if and
only if that was in the order of the ids, with the totals up to date. -/
theorem survives_iff (digest : Job → Nat) (lower : Text → Text) (w : World)
    (rows rows' : List ControlRow) (o o' : Owner) (msgs : List (World × Msg))
    (h : Agrees rows o.state)
    (hc : commitMutationDelta digest w rows o.state (request lower o msgs) = .ok (rows', o')) :
    o'.state.jobs = (request lower o msgs).state.jobs ↔
      InOrder (request lower o msgs).state.jobs := by
  generalize request lower o msgs = after at hc ⊢
  rw [commitMutationDelta] at hc
  cases hrows : commitJobDelta digest rows (delta o.state after.state) with
  | error e => rw [hrows] at hc; exact absurd hc (by simp [Except.map])
  | ok mid =>
    rw [hrows] at hc
    obtain ⟨rfl, rfl⟩ := Prod.mk.inj (Except.ok.inj hc)
    have hlive := liveIntent_delta h hrows
    have hn : (rowIds mid).Nodup := (committed_commitJobDelta digest h.rowIds hrows).nodup
    have hid : ∀ id j, liveIntent mid id = some j → j.id = id := by
      intro id j hj
      rw [hlive] at hj
      exact job_find hj
    obtain ⟨hsorted, hmem⟩ := loadJobs_inOrder hn hid
    rw [adoptReplicatedAuthority_state]
    change (loadJobs mid).map recomputeJobTotals = after.state.jobs ↔ _
    constructor
    · intro heq
      rw [← heq]
      refine ⟨pairwise_map.mpr (hsorted.imp fun hab => hab), ?_⟩
      intro j hj
      obtain ⟨k, -, rfl⟩ := mem_map.mp hj
      rfl
    · intro hin
      have hnodup : (after.state.jobs.map (·.id)).Nodup :=
        pairwise_map.mpr (hin.ids.imp fun hab => ne_of_lt hab)
      have hjobs : loadJobs mid = after.state.jobs := by
        refine eq_of_inOrder hsorted hin.ids fun j => ?_
        rw [hmem, hlive]
        exact ⟨mem_of_find?_eq_some, fun hj => find?_key_eq hnodup hj⟩
      rw [hjobs]
      exact (map_congr_left hin.totals).trans (map_id _)

/-! ### Two jobs -/

def urlRow (id : JobId) (name : String) : ControlRow where
  jobId := id
  incarnation := []
  revision := 1
  intent := QueueState.newJob 0 id .url (text name) (text name) none 0 .fetching
  deleted := false

def twoRows : List ControlRow := [urlRow 1 "a", urlRow 2 "b"]

def twoJobs : Owner :=
  (Owner.start calmWorld (dayConfig false) QueueState.default.toDoc []).adoptReplicatedAuthority
    calmWorld (loadJobs twoRows)

theorem agrees_twoJobs : Agrees twoRows twoJobs.state := by
  refine ⟨by decide, by decide +kernel, ?_⟩
  intro id
  have hjobs : twoJobs.state.jobs = twoRows.map (·.intent) := by decide +kernel
  rw [QueueState.job, hjobs]
  by_cases h1 : id = 1
  · subst h1; decide +kernel
  · by_cases h2 : id = 2
    · subst h2; decide +kernel
    · have hrows : findRow twoRows id = none :=
        find?_eq_none.mpr (by simp [twoRows, urlRow, Ne.symm h1, Ne.symm h2])
      rw [liveIntent, hrows]
      refine (find?_eq_none.mpr ?_).symm
      simp [twoRows, urlRow, QueueState.newJob, Ne.symm h1, Ne.symm h2]

/-- A new priority survives. -/
theorem survives_setPriority : ∃ rows' o',
    commitMutationDelta (fun _ => 0) calmWorld twoRows twoJobs.state
      (request toAsciiLowercase twoJobs [(calmWorld, .setPriority 1 50)]) = .ok (rows', o') ∧
    o'.state.jobs =
      (request toAsciiLowercase twoJobs [(calmWorld, .setPriority 1 50)]).state.jobs := by
  have hok : (commitJobDelta (fun _ => 0) twoRows (delta twoJobs.state
      (request toAsciiLowercase twoJobs [(calmWorld, .setPriority 1 50)]).state)).isOk = true := by
    decide +kernel
  cases hrows : commitJobDelta (fun _ => 0) twoRows (delta twoJobs.state
      (request toAsciiLowercase twoJobs [(calmWorld, .setPriority 1 50)]).state) with
  | error e => rw [hrows] at hok; exact absurd hok (by simp [Except.isOk, Except.toBool])
  | ok rows' =>
    have hc := commitMutationDelta_ok (w := calmWorld) _ hrows
    refine ⟨rows', _, hc, (survives_iff (fun _ => 0) toAsciiLowercase calmWorld twoRows rows'
      twoJobs _ [(calmWorld, .setPriority 1 50)] agrees_twoJobs hc).mpr ⟨?_, ?_⟩⟩
    · decide +kernel
    · decide +kernel

/-- The second job is moved to the top, and the commit puts it back. -/
theorem moveTop_undone :
    ¬ ∀ (digest : Job → Nat) (lower : Text → Text) (w : World) (rows rows' : List ControlRow)
      (o o' : Owner) (msgs : List (World × Msg)), Agrees rows o.state →
      commitMutationDelta digest w rows o.state (request lower o msgs) = .ok (rows', o') →
      o'.state.jobs = (request lower o msgs).state.jobs := by
  intro h
  have hdelta : delta twoJobs.state
      (request toAsciiLowercase twoJobs [(calmWorld, .move 2 .top)]).state = [] := by
    decide +kernel
  have hcommit : commitJobDelta (fun _ => 0) twoRows (delta twoJobs.state
      (request toAsciiLowercase twoJobs [(calmWorld, .move 2 .top)]).state) = .ok twoRows := by
    rw [hdelta]
    rfl
  have hc := commitMutationDelta_ok (w := calmWorld) _ hcommit
  have hjobs := h _ _ _ _ _ _ _ _ agrees_twoJobs hc
  exact absurd (congrArg (List.map (·.id)) hjobs) (by decide +kernel)

end Nzbd
