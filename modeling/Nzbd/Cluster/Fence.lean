import Nzbd.Cluster.Calls

/-!
# Fenced leases

A lease row carries two counters.  Its fence goes up with every acquisition and
its revision with every write, and a token is good only for the row it was copied
from.  So the tokens of a resource come in order, the last one given out is the
only one that can be good, and what closes a row (`terminal`) closes it for all
tokens of its fence.

`LeaseInv` is the invariant, one lemma a statement.  Nothing in it mentions a
clock: an expiry decides whether a statement takes effect, never what it does.
-/

namespace Nzbd

open List
open ControlStore (Fresh)
open ControlDb

/-! ### The invariant -/

/-- Tokens of one resource, the later one first. -/
def LaterToken (new old : LeaseToken) : Prop :=
  new.resource = old.resource → old.fence ≤ new.fence ∧ old.revision < new.revision

/-- Two publications that may both be accepted. -/
def Compatible (a b : Accepted) : Prop :=
  (a.receipt.token.resource = b.receipt.token.resource →
      a.receipt.token.fence ≠ b.receipt.token.fence) ∧
    (a.kind ≠ segmentKind → b.kind ≠ segmentKind → a.jobId = b.jobId →
      a.receipt.expectedJobRevision ≠ b.receipt.expectedJobRevision)

/-- The lease row says that the token was given out, and is spent if it was the
last. -/
structure Spent (db : ControlDb) (t : LeaseToken) (l : LeaseRow) : Prop where
  row : db.leases t.resource = some l
  fence : t.fence ≤ l.fence
  closed : t.fence = l.fence → l.terminal = true

structure LeaseInv (db : ControlDb) : Prop where
  jobs : (rowIds db.jobs).Nodup
  current : ∀ r ∈ db.jobs, r ∈ db.versions
  named : ∀ r l, db.leases r = some l → l.resource = r
  known : ∀ t ∈ db.issued, ∃ l, db.leases t.resource = some l ∧
    t.fence ≤ l.fence ∧ t.revision ≤ l.revision
  newest : ∀ r l, db.leases r = some l → l.terminal = false → db.newest r = some l.token
  ordered : db.issued.Pairwise LaterToken
  spent : ∀ a ∈ db.accepted, ∃ l, Spent db a.receipt.token l
  raised : ∀ a ∈ db.accepted, a.kind ≠ segmentKind →
    ∃ row ∈ db.jobs, row.jobId = a.jobId ∧ a.receipt.expectedJobRevision < row.revision
  compatible : db.accepted.Pairwise Compatible
  begun : ∀ receiptId ∈ db.ran, (db.scripts receiptId).isSome
  ranOnce : db.ran.Nodup

theorem LeaseInv.of_fresh {db : ControlDb} (h : Fresh db) : LeaseInv db where
  jobs := h.jobs
  current := by
    rw [h.versions]
    exact fun r hr => hr
  named := by
    intro r l hl
    rw [h.leases r] at hl
    nomatch hl
  known := by
    rw [h.issued]
    exact fun t ht => absurd ht not_mem_nil
  newest := by
    intro r l hl
    rw [h.leases r] at hl
    nomatch hl
  ordered := by
    rw [h.issued]
    exact List.Pairwise.nil
  spent := by
    rw [h.accepted]
    exact fun a ha => absurd ha not_mem_nil
  raised := by
    rw [h.accepted]
    exact fun a ha => absurd ha not_mem_nil
  compatible := by
    rw [h.accepted]
    exact List.Pairwise.nil
  begun := by
    rw [h.ran]
    exact fun a ha => absurd ha not_mem_nil
  ranOnce := by
    rw [h.ran]
    exact nodup_nil

variable {db u : ControlDb}

theorem setLease_leases (db : ControlDb) (l : LeaseRow) (r : Text) :
    (db.setLease l).leases r = if r = l.resource then some l else db.leases r := by
  simp [setLease, Function.update_apply]

/-! ### One lemma a statement -/

theorem LeaseInv.close (h : LeaseInv db) {l l' : LeaseRow} (hl : db.leases l.resource = some l)
    (hres : l'.resource = l.resource) (hfence : l'.fence = l.fence)
    (hrev : l'.revision = l.revision + 1) (hterm : l'.terminal = true) :
    LeaseInv (db.setLease l') where
  jobs := h.jobs
  current := h.current
  named := by
    intro r k hk
    rw [setLease_leases] at hk
    split at hk
    next hr => exact Option.some.inj hk ▸ hr.symm
    · exact h.named r k hk
  known := by
    intro t ht
    obtain ⟨k, hk, hf, hr⟩ := h.known t ht
    by_cases hsame : t.resource = l.resource
    · rw [hsame, hl] at hk
      obtain rfl := Option.some.inj hk
      refine ⟨l', ?_, by omega, by omega⟩
      rw [setLease_leases, if_pos (hsame.trans hres.symm)]
    · refine ⟨k, ?_, hf, hr⟩
      rw [setLease_leases, if_neg fun he => hsame (he.trans hres), hk]
  newest := by
    intro r k hk hopen
    rw [setLease_leases] at hk
    split at hk
    · obtain rfl := Option.some.inj hk
      rw [hterm] at hopen
      nomatch hopen
    · exact h.newest r k hk hopen
  ordered := h.ordered
  spent := by
    intro a ha
    obtain ⟨k, hk⟩ := h.spent a ha
    by_cases hsame : a.receipt.token.resource = l.resource
    · have hrow := hk.row
      rw [hsame, hl] at hrow
      obtain rfl := Option.some.inj hrow
      refine ⟨l', ?_, hfence ▸ hk.fence, fun _ => hterm⟩
      rw [setLease_leases, if_pos (hsame.trans hres.symm)]
    · refine ⟨k, ?_, hk.fence, hk.closed⟩
      rw [setLease_leases, if_neg fun he => hsame (he.trans hres), hk.row]
  raised := h.raised
  compatible := h.compatible
  begun := h.begun
  ranOnce := h.ranOnce

/-- A write that gives a token out: a higher revision than any before, and if the
fence is the same then the row was open. -/
theorem LeaseInv.issue (h : LeaseInv db) {l : LeaseRow}
    (hbefore : ∀ k, db.leases l.resource = some k → k.revision < l.revision ∧ k.fence ≤ l.fence ∧
      (k.fence = l.fence → k.terminal = false)) :
    LeaseInv (db.issue l) where
  jobs := h.jobs
  current := h.current
  named := by
    intro r k hk
    change (db.setLease l).leases r = some k at hk
    rw [setLease_leases] at hk
    split at hk
    next hr => exact Option.some.inj hk ▸ hr.symm
    · exact h.named r k hk
  known := by
    intro t ht
    change ∃ k, (db.setLease l).leases t.resource = some k ∧ _
    rcases mem_cons.mp ht with rfl | ht
    · refine ⟨l, ?_, Nat.le_refl _, Nat.le_refl _⟩
      rw [setLease_leases, if_pos (show l.token.resource = l.resource from rfl)]
    · obtain ⟨k, hk, hf, hr⟩ := h.known t ht
      by_cases hsame : t.resource = l.resource
      · have hup := hbefore k (hsame ▸ hk)
        refine ⟨l, ?_, by omega, by omega⟩
        rw [setLease_leases, if_pos hsame]
      · refine ⟨k, ?_, hf, hr⟩
        rw [setLease_leases, if_neg hsame, hk]
  newest := by
    intro r k hk hopen'
    change (db.setLease l).leases r = some k at hk
    change (l.token :: db.issued).find? (·.resource = r) = some k.token
    rw [setLease_leases] at hk
    rw [find?_cons]
    split at hk
    next hr =>
      obtain rfl := Option.some.inj hk
      rw [show decide (l.token.resource = r) = true from decide_eq_true hr.symm]
    next hr =>
      rw [show decide (l.token.resource = r) = false from decide_eq_false fun he => hr he.symm]
      exact h.newest r k hk hopen'
  ordered := by
    refine pairwise_cons.mpr ⟨fun t ht hsame => ?_, h.ordered⟩
    obtain ⟨k, hk, hf, hr⟩ := h.known t ht
    have hup := hbefore k (by rw [← hk, ← hsame]; rfl)
    change t.fence ≤ l.fence ∧ t.revision < l.revision
    omega
  spent := by
    intro a ha
    obtain ⟨k, hk⟩ := h.spent a ha
    by_cases hsame : a.receipt.token.resource = l.resource
    · have hup := hbefore k (hsame ▸ hk.row)
      refine ⟨l, ?_, Nat.le_trans hk.fence hup.2.1, fun he => ?_⟩
      · change (db.setLease l).leases _ = _
        rw [setLease_leases, if_pos hsame]
      · -- the row of the spent token is closed, so the fence has gone up
        have hf := hk.fence
        have hclosed := hk.closed (by omega)
        have hstill := hup.2.2 (by omega)
        rw [hclosed] at hstill
        nomatch hstill
    · refine ⟨k, ?_, hk.fence, hk.closed⟩
      change (db.setLease l).leases _ = _
      rw [setLease_leases, if_neg hsame, hk.row]
  raised := h.raised
  compatible := h.compatible
  begun := h.begun
  ranOnce := h.ranOnce

theorem LeaseInv.upsertLease {c : Claim} {now expiry : Int} {t : Option LeaseToken}
    (h : LeaseInv db) (hu : upsertLease c now expiry db = .ok (u, t)) : LeaseInv u := by
  rcases upsertLease_ok hu with ⟨hnone, -, rfl, -⟩ | ⟨l, hl, -, rfl, -⟩ | ⟨-, rfl, -⟩
  · refine h.issue fun k hk => ?_
    rw [show (claimed c expiry 1 1).resource = c.resource from rfl, hnone] at hk
    nomatch hk
  · refine h.issue fun k hk => ?_
    obtain rfl : l = k := Option.some.inj (hl.symm.trans hk)
    refine ⟨Nat.lt_succ_self _, Nat.le_succ _, fun he => ?_⟩
    exact absurd he (Nat.ne_of_lt (Nat.lt_succ_self _))
  · exact h

variable {t : LeaseToken}

theorem leases_of_holds {l : LeaseRow} (h : db.holds t = some l) :
    db.leases l.resource = some l ∧ l.token = t ∧ l.terminal = false := by
  obtain ⟨hl, htok, hopen⟩ := holds_eq h
  have hres : l.resource = t.resource := by rw [← htok]; rfl
  exact ⟨by rw [hres, hl], htok, hopen⟩

theorem LeaseInv.renewLease {now expiry : Int} {t' : Option LeaseToken}
    (h : LeaseInv db) (hu : renewLease t now expiry db = .ok (u, t')) : LeaseInv u := by
  rcases renewLease_ok hu with ⟨-, rfl, -⟩ | ⟨l, hl, -, rfl⟩
  · exact h
  · obtain ⟨hrow, -, hopen⟩ := leases_of_holds (holdsAt_eq hl).1
    refine h.issue fun k hk => ?_
    obtain rfl : l = k := Option.some.inj (hrow.symm.trans hk)
    exact ⟨Nat.lt_succ_self _, Nat.le_refl _, fun _ => hopen⟩

theorem LeaseInv.releaseLease {now : Int} {b : Bool} (h : LeaseInv db)
    (hu : releaseLease t now db = .ok (u, b)) : LeaseInv u := by
  rcases releaseLease_ok hu with ⟨-, rfl, -⟩ | ⟨l, hl, -, rfl⟩
  · exact h
  · exact h.close (leases_of_holds hl).1 rfl rfl rfl rfl

theorem LeaseInv.setJobs (h : LeaseInv db) (hn : (rowIds u.jobs).Nodup)
    (hcur : ∀ r ∈ u.jobs, r ∈ u.versions)
    (hup : ∀ r ∈ db.jobs, ∃ r' ∈ u.jobs, r'.jobId = r.jobId ∧ r.revision ≤ r'.revision)
    (hl : u.leases = db.leases) (hi : u.issued = db.issued) (ha : u.accepted = db.accepted)
    (hs : u.scripts = db.scripts) (hr : u.ran = db.ran) : LeaseInv u where
  jobs := hn
  current := hcur
  named := hl ▸ h.named
  known := by
    rw [hi, hl]
    exact h.known
  newest := by
    intro r l hrow hopen
    rw [ControlDb.newest, hi]
    exact h.newest r l (hl ▸ hrow) hopen
  ordered := hi ▸ h.ordered
  spent := by
    intro a ha'
    obtain ⟨l, hspent⟩ := h.spent a (ha ▸ ha')
    exact ⟨l, hl ▸ hspent.row, hspent.fence, hspent.closed⟩
  raised := by
    intro a ha' hkind
    obtain ⟨row, hrow, hid, hlt⟩ := h.raised a (ha ▸ ha') hkind
    obtain ⟨row', hrow', hid', hle⟩ := hup row hrow
    exact ⟨row', hrow', hid'.trans hid, Nat.lt_of_lt_of_le hlt hle⟩
  compatible := ha ▸ h.compatible
  begun := by
    rw [hr, hs]
    exact h.begun
  ranOnce := hr ▸ h.ranOnce

theorem LeaseInv.raise (h : LeaseInv db) {f : ControlRow → ControlRow}
    (hid : ∀ r, (f r).jobId = r.jobId) (hrev : ∀ r, r.revision ≤ (f r).revision)
    (hjobs : u.jobs = db.jobs.map f) (hv : ∀ r ∈ db.jobs, f r ∈ u.versions)
    (hl : u.leases = db.leases) (hi : u.issued = db.issued) (ha : u.accepted = db.accepted)
    (hs : u.scripts = db.scripts) (hr : u.ran = db.ran) : LeaseInv u := by
  refine h.setJobs ?_ ?_ ?_ hl hi ha hs hr
  · have hkeys : rowIds u.jobs = rowIds db.jobs := by
      rw [hjobs, rowIds, map_map]
      exact map_congr_left fun r _ => hid r
    rw [hkeys]
    exact h.jobs
  · intro r hr'
    rw [hjobs] at hr'
    obtain ⟨q, hq, rfl⟩ := mem_map.mp hr'
    exact hv q hq
  · intro r hr'
    refine ⟨f r, ?_, hid r, hrev r⟩
    rw [hjobs]
    exact mem_map_of_mem hr'

theorem LeaseInv.insertCommand {commandId : Text} {id : JobId} {expected applied : Nat}
    {next : Job} {deleted : Bool} {basis : Option ControlRow} (h : LeaseInv db)
    (happlied : applied = expected + 1)
    (hu : insertCommand commandId id expected applied next deleted basis db = .ok (u, ())) :
    LeaseInv u := by
  obtain ⟨row, hrow, hid, hrev, -, rfl⟩ := insertCommand_ok h.jobs hu
  refine h.raise (f := fun r => if r.jobId = id ∧ r.revision = expected then
    { r with revision := applied, intent := next, deleted := deleted } else r)
    ?_ ?_ rfl ?_ rfl rfl rfl rfl rfl
  · intro r
    split <;> rfl
  · intro r
    split
    next hr =>
      change r.revision ≤ applied
      omega
    next => exact Nat.le_refl _
  · intro r hr
    split
    next hm =>
      obtain rfl : r = row := row_unique h.jobs hr hrow (hm.1.trans hid.symm)
      exact mem_cons_self
    next => exact mem_cons_of_mem _ (h.current r hr)

theorem LeaseInv.insertJob {row : ControlRow} (h : LeaseInv db)
    (hu : insertJob row db = .ok (u, ())) : LeaseInv u := by
  have hn := nodup_insertJob h.jobs hu
  obtain ⟨-, rfl⟩ := insertJob_ok hu
  refine h.setJobs hn ?_ ?_ rfl rfl rfl rfl rfl
  · intro r hr
    rcases mem_append.mp hr with hr | hr
    · exact mem_cons_of_mem _ (h.current r hr)
    · exact mem_singleton.mp hr ▸ mem_cons_self
  · exact fun r hr => ⟨r, mem_append_left _ hr, rfl, Nat.le_refl _⟩

theorem LeaseInv.accept (h : LeaseInv db) {p : PublicationReceipt} {l : LeaseRow}
    (hl : db.holds p.token = some l)
    (hraised : l.kind ≠ segmentKind →
      ∃ row ∈ db.jobs, row.jobId = l.jobId ∧ p.expectedJobRevision < row.revision)
    (hnew : ∀ a ∈ db.accepted, a.kind ≠ segmentKind → l.kind ≠ segmentKind → a.jobId = l.jobId →
      a.receipt.expectedJobRevision ≠ p.expectedJobRevision) :
    LeaseInv { db.setLease { l with revision := l.revision + 1, terminal := true } with
      accepted := ⟨p, l.jobId, l.kind⟩ :: db.accepted } := by
  obtain ⟨hrow, htok, hopen⟩ := leases_of_holds hl
  have hclosed : LeaseInv (db.setLease { l with revision := l.revision + 1, terminal := true }) :=
    h.close hrow rfl rfl rfl rfl
  have hres : p.token.resource = l.resource := by rw [← htok]; rfl
  have hfence : p.token.fence = l.fence := by rw [← htok]; rfl
  refine ⟨hclosed.jobs, hclosed.current, hclosed.named, hclosed.known, hclosed.newest,
    hclosed.ordered, ?_, ?_, ?_, hclosed.begun, hclosed.ranOnce⟩
  · intro a ha
    rcases mem_cons.mp ha with rfl | ha
    · refine ⟨{ l with revision := l.revision + 1, terminal := true }, ?_, hfence.le, fun _ => rfl⟩
      exact (setLease_leases _ _ _).trans (if_pos hres)
    · obtain ⟨k, hk⟩ := hclosed.spent a ha
      exact ⟨k, hk.row, hk.fence, hk.closed⟩
  · intro a ha hkind
    rcases mem_cons.mp ha with rfl | ha
    · exact hraised hkind
    · exact h.raised a ha hkind
  · refine pairwise_cons.mpr ⟨fun a ha => ⟨fun hsame he => ?_, ?_⟩, h.compatible⟩
    · -- an earlier publication of this fence closed the row for good
      obtain ⟨k, hk⟩ := h.spent a ha
      have hrow' := hk.row
      rw [← hsame] at hrow'
      change db.leases p.token.resource = some k at hrow'
      rw [hres, hrow] at hrow'
      obtain rfl := Option.some.inj hrow'
      have hterm := hk.closed (he.symm.trans hfence)
      rw [hopen] at hterm
      cases hterm
    · exact fun hl' ha' hid => (hnew a ha ha' hl' hid.symm).symm

theorem LeaseInv.insertPublication {p : PublicationReceipt} (h : LeaseInv db)
    (hu : insertPublication p db = .ok (u, ())) : LeaseInv u := by
  obtain ⟨l, row, hl, -, hrow, hid, hrev, hu⟩ := insertPublication_ok hu
  have hholds := (holdsAt_eq hl).1
  rcases hu with ⟨hkind, rfl⟩ | ⟨hkind, rfl⟩
  · have hbase : LeaseInv { db with
        publications := db.publications ++ [p]
        ranges := db.ranges ++ [⟨l.resource, l.jobId, l.scopeJson, p.resultId, p.resultRef⟩] } :=
      h.setJobs h.jobs h.current (fun r hr => ⟨r, hr, rfl, Nat.le_refl _⟩) rfl rfl rfl rfl rfl
    exact hbase.accept hholds (fun hne => absurd hkind hne) fun _ _ _ hne => absurd hkind hne
  · have hbase : LeaseInv { db.noteChange p.expectedJobRevision none row
          { row with intent := p.resultJob, revision := row.revision + 1 } with
        publications := db.publications ++ [p]
        jobs := db.jobs.map fun r => if r.jobId = l.jobId then
          { r with intent := p.resultJob, revision := r.revision + 1 } else r } := by
      refine h.raise (f := fun r => if r.jobId = l.jobId then
        { r with intent := p.resultJob, revision := r.revision + 1 } else r)
        ?_ ?_ rfl ?_ rfl rfl rfl rfl rfl
      · intro r
        split <;> rfl
      · intro r
        split
        · exact Nat.le_succ _
        · exact Nat.le_refl _
      · intro r hr
        split
        next hm =>
          obtain rfl : r = row := row_unique h.jobs hr hrow (hm.trans hid.symm)
          exact mem_cons_self
        next => exact mem_cons_of_mem _ (h.current r hr)
    refine hbase.accept hholds ?_ ?_
    · intro _
      refine ⟨{ row with intent := p.resultJob, revision := row.revision + 1 }, ?_, hid, ?_⟩
      · refine mem_map.mpr ⟨row, hrow, ?_⟩
        rw [if_pos hid]
      · change p.expectedJobRevision < row.revision + 1
        omega
    · intro a ha hkind' _ hsame he
      obtain ⟨r, hr, hrid, hlt⟩ := h.raised a ha hkind'
      obtain rfl : r = row := row_unique h.jobs hr hrow (hrid.trans (hsame.trans hid.symm))
      omega

theorem LeaseInv.setScripts (h : LeaseInv db) {scripts : Text → Option ScriptReceipt}
    {ran : List Text} (hb : ∀ id ∈ ran, (scripts id).isSome) (hn : ran.Nodup) :
    LeaseInv { db with scripts := scripts, ran := ran } :=
  ⟨h.jobs, h.current, h.named, h.known, h.newest, h.ordered,
    fun a ha => (h.spent a ha).imp fun _ hk => ⟨hk.row, hk.fence, hk.closed⟩, h.raised,
    h.compatible, hb, hn⟩

theorem LeaseInv.insertScript {receiptId : Text} {now : Int} {b : Bool}
    (h : LeaseInv db) (hu : insertScript receiptId t now db = .ok (u, b)) : LeaseInv u := by
  rcases insertScript_ok hu with ⟨rfl, -⟩ | ⟨l, -, hnone, -, rfl⟩
  · exact h
  · refine h.setScripts ?_ ?_
    · intro id hid
      rw [Function.update_apply]
      split
      · rfl
      next hne => exact h.begun id ((mem_cons.mp hid).resolve_left hne)
    · refine nodup_cons.mpr ⟨fun hran => ?_, h.ranOnce⟩
      have hsome := h.begun receiptId hran
      rw [hnone] at hsome
      nomatch hsome

theorem LeaseInv.finishRow {receiptId : Text} {now : Int} {b : Bool}
    (h : LeaseInv db) (hu : finishRow receiptId t now db = .ok (u, b)) : LeaseInv u := by
  rcases finishRow_ok hu with ⟨rfl, -⟩ | ⟨l, r, -, -, -, rfl⟩
  · exact h
  · refine h.setScripts (fun id hid => ?_) h.ranOnce
    rw [Function.update_apply]
    split
    · rfl
    · exact h.begun id hid

/-- A step that takes effect with a token, by any clock. -/
inductive Effective (db : ControlDb) (t : LeaseToken) : Prop
  | renew (now expiry : Int) (u : ControlDb) (t' : LeaseToken)
      (h : renewLease t now expiry db = .ok (u, some t'))
  | release (now : Int) (u : ControlDb) (h : releaseLease t now db = .ok (u, true))
  | publish (p : PublicationReceipt) (u : ControlDb) (ht : p.token = t)
      (h : insertPublication p db = .ok (u, ()))
  | begin (receiptId : Text) (now : Int) (u : ControlDb)
      (h : insertScript receiptId t now db = .ok (u, true))
  | finish (receiptId : Text) (now : Int) (u : ControlDb)
      (h : finishRow receiptId t now db = .ok (u, true))

theorem Effective.holds (h : Effective db t) : ∃ l, db.holds t = some l := by
  cases h with
  | renew now expiry u t' h =>
    rcases renewLease_ok h with ⟨-, -, hnone⟩ | ⟨l, hl, -⟩
    · nomatch hnone
    · exact ⟨l, (holdsAt_eq hl).1⟩
  | release now u h =>
    rcases releaseLease_ok h with ⟨-, -, hfalse⟩ | ⟨l, hl, -⟩
    · nomatch hfalse
    · exact ⟨l, hl⟩
  | publish p u ht h =>
    obtain ⟨l, row, hl, -⟩ := insertPublication_ok h
    exact ⟨l, ht ▸ (holdsAt_eq hl).1⟩
  | begin receiptId now u h =>
    rcases insertScript_ok h with ⟨-, hfalse⟩ | ⟨l, hl, -⟩
    · nomatch hfalse
    · exact ⟨l, (holdsAt_eq hl).1⟩
  | finish receiptId now u h =>
    rcases finishRow_ok h with ⟨-, hfalse⟩ | ⟨l, r, hl, -⟩
    · nomatch hfalse
    · exact ⟨l, (holdsAt_eq hl).1⟩

end Nzbd
