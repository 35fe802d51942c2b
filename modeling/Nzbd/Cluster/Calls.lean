import Nzbd.Cluster.Store

/-!
# What every call keeps

A property of the database that each statement keeps holds in every state that
any number of callers reach (`Preserved.reached`).

The one thing a statement needs to know about its caller is where a command
comes from: the row it was made from was in the table at some time (`Basis`).
Rows are never forgotten (`Grows`), so that stays true while others run.
-/

namespace Nzbd

open List Except
open Interleave (Prog)

/-- The changes to the row of a job, the last one first. -/
def ControlDb.changesOf (db : ControlDb) (id : JobId) : List Applied :=
  db.changes.filter (·.before.jobId = id)

/-- A row is never taken out, goes up by one a change, and no version of it is
forgotten. -/
structure Grows (db u : ControlDb) : Prop where
  versions : ∀ r ∈ db.versions, r ∈ u.versions
  changes : db.changes <:+ u.changes
  rows : ∀ r ∈ db.jobs, ∃ r' ∈ u.jobs, r'.jobId = r.jobId ∧ r'.incarnation = r.incarnation ∧
    r'.revision + (db.changesOf r.jobId).length = r.revision + (u.changesOf r.jobId).length

theorem Grows.refl (db : ControlDb) : Grows db db :=
  ⟨fun _ h => h, suffix_refl _, fun r hr => ⟨r, hr, rfl, rfl, rfl⟩⟩

theorem Grows.trans (db u v : ControlDb) (h : Grows db u) (g : Grows u v) : Grows db v where
  versions r hr := g.versions r (h.versions r hr)
  changes := h.changes.trans g.changes
  rows := by
    intro r hr
    obtain ⟨r', hr', hid, hinc, hrev⟩ := h.rows r hr
    obtain ⟨q, hq, hqid, hqinc, hqrev⟩ := g.rows r' hr'
    rw [hid] at hqrev
    exact ⟨q, hq, hqid.trans hid, hqinc.trans hinc, by omega⟩

theorem Grows.of_eq {db u : ControlDb} (hv : u.versions = db.versions) (hj : u.jobs = db.jobs)
    (hc : u.changes = db.changes) : Grows db u where
  versions := hv ▸ fun _ h => h
  changes := hc ▸ suffix_refl _
  rows r hr := ⟨r, hj ▸ hr, rfl, rfl, by rw [ControlDb.changesOf, ControlDb.changesOf, hc]⟩

/-- The row a command was made from is a version of the row it names. -/
def Basis (db : ControlDb) (id : JobId) (expected : Nat) (basis : Option ControlRow) : Prop :=
  ∀ b, basis = some b → b ∈ db.versions ∧ b.jobId = id ∧ b.revision = expected

variable {basis : Option ControlRow} {id : JobId}

theorem Basis.mono {db u : ControlDb} {expected : Nat}
    (h : Basis db id expected basis) (hg : Grows db u) : Basis u id expected basis := by
  intro b hb
  obtain ⟨hmem, hid, hrev⟩ := h b hb
  exact ⟨hg.versions b hmem, hid, hrev⟩

/-- A receipt of a request comes from a row that was read. -/
def RequestStatement.Valid (db : ControlDb) : RequestStatement → Prop
  | .insert _ => True
  | .receipt _ id expected _ _ basis => Basis db id expected basis

theorem RequestStatement.Valid.mono {db u : ControlDb} {s : RequestStatement} (h : s.Valid db)
    (hg : Grows db u) : s.Valid u := by
  cases s with
  | insert row => trivial
  | receipt commandId id expected next deleted basis => exact Basis.mono h hg

theorem ok_of_map {ε α β : Type*} {x : Except ε α} {f : α → β} {b : β} (h : x.map f = .ok b) :
    ∃ a, x = .ok a ∧ f a = b := by
  cases x with
  | error e => nomatch h
  | ok a => exact ⟨a, rfl, ok.inj h⟩

theorem row_unique {rows : List ControlRow} (hn : (rowIds rows).Nodup) {r q : ControlRow}
    (hr : r ∈ rows) (hq : q ∈ rows) (h : r.jobId = q.jobId) : r = q :=
  inj_on_of_nodup_map hn hr hq h

namespace ControlDb

variable {db u : ControlDb}

theorem nextI64_ok {label : Text} {n m : Nat} (h : nextI64 label n = .ok m) :
    n < maxI64 ∧ m = n + 1 := by
  rw [nextI64] at h
  split at h
  · exact ⟨‹_›, (ok.inj h).symm⟩
  · exact absurd h (by simp)

variable {t : LeaseToken}

theorem holds_eq {l : LeaseRow} (h : db.holds t = some l) :
    db.leases t.resource = some l ∧ l.token = t ∧ l.terminal = false := by
  obtain ⟨hl, hm⟩ := Option.filter_eq_some_iff.mp h
  simp only [Bool.and_eq_true, decide_eq_true_eq, Bool.not_eq_true'] at hm
  exact ⟨hl, hm⟩

variable {now : Int}

theorem holdsAt_eq {l : LeaseRow} (h : db.holdsAt t now = some l) :
    db.holds t = some l ∧ now < l.expiresAtMs := by
  obtain ⟨hl, hm⟩ := Option.filter_eq_some_iff.mp h
  exact ⟨hl, by simpa using hm⟩

def claimed (c : Claim) (expiry : Int) (fence revision : Nat) : LeaseRow where
  resource := c.resource
  jobId := c.jobId
  jobIncarnation := c.jobIncarnation
  ownerNodeId := c.ownerNodeId
  ownerIncarnation := c.ownerIncarnation
  kind := c.kind
  scopeJson := c.scopeJson
  fence := fence
  revision := revision
  jobRevision := c.jobRevision
  expiresAtMs := expiry
  terminal := false

theorem upsertLease_ok {c : Claim} {now expiry : Int} {t : Option LeaseToken}
    (h : upsertLease c now expiry db = .ok (u, t)) :
    (db.leases c.resource = none ∧ t = some (claimed c expiry 1 1).token ∧
        u = db.issue (claimed c expiry 1 1) ∧ 0 < c.jobRevision) ∨
      (∃ l, db.leases c.resource = some l ∧
        t = some (claimed c expiry (l.fence + 1) (l.revision + 1)).token ∧
        u = db.issue (claimed c expiry (l.fence + 1) (l.revision + 1)) ∧ l.expiresAtMs ≤ now) ∨
      ((db.leases c.resource).isSome ∧ u = db ∧ t = none) := by
  simp only [upsertLease] at h
  split at h
  · exact absurd h (by simp)
  next hrev =>
    split at h
    next hnone =>
      obtain ⟨rfl, rfl⟩ := Prod.mk.inj (ok.inj h)
      exact .inl ⟨hnone, rfl, rfl, by omega⟩
    next l hl =>
      split at h
      next hfree =>
        obtain ⟨rfl, rfl⟩ := Prod.mk.inj (ok.inj h)
        exact .inr (.inl ⟨l, hl, rfl, rfl, hfree.1⟩)
      next =>
        obtain ⟨rfl, rfl⟩ := Prod.mk.inj (ok.inj h)
        exact .inr (.inr ⟨by rw [hl]; rfl, rfl, rfl⟩)

theorem renewLease_ok {now expiry : Int} {t' : Option LeaseToken}
    (h : renewLease t now expiry db = .ok (u, t')) :
    (db.holdsAt t now = none ∧ u = db ∧ t' = none) ∨
      ∃ l, db.holdsAt t now = some l ∧
        t' = some { l with revision := l.revision + 1, expiresAtMs := expiry : LeaseRow }.token ∧
        u = db.issue { l with revision := l.revision + 1, expiresAtMs := expiry } := by
  rw [renewLease] at h
  split at h
  next hnone =>
    obtain ⟨rfl, rfl⟩ := Prod.mk.inj (ok.inj h)
    exact .inl ⟨hnone, rfl, rfl⟩
  next l hl =>
    obtain ⟨revision, hrev, h⟩ := ok_of_bind h
    obtain ⟨-, rfl⟩ := nextI64_ok hrev
    obtain ⟨rfl, rfl⟩ := Prod.mk.inj (ok.inj h)
    exact .inr ⟨l, hl, rfl, rfl⟩

theorem releaseLease_ok {b : Bool}
    (h : releaseLease t now db = .ok (u, b)) :
    (db.holds t = none ∧ u = db ∧ b = false) ∨
      ∃ l, db.holds t = some l ∧ b = true ∧
        u = db.setLease { l with revision := l.revision + 1, expiresAtMs := now, terminal := true } := by
  rw [releaseLease] at h
  split at h
  next hnone =>
    obtain ⟨rfl, rfl⟩ := Prod.mk.inj (ok.inj h)
    exact .inl ⟨hnone, rfl, rfl⟩
  next l hl =>
    obtain ⟨revision, hrev, h⟩ := ok_of_bind h
    obtain ⟨-, rfl⟩ := nextI64_ok hrev
    obtain ⟨rfl, rfl⟩ := Prod.mk.inj (ok.inj h)
    exact .inr ⟨l, hl, rfl, rfl⟩

theorem insertScript_ok {receiptId : Text} {b : Bool}
    (h : insertScript receiptId t now db = .ok (u, b)) :
    (u = db ∧ b = false) ∨
      ∃ l, db.holdsAt t now = some l ∧ db.scripts receiptId = none ∧ b = true ∧ u = { db with
        scripts := Function.update db.scripts receiptId (some ⟨l.resource, l.jobId, .started⟩)
        ran := receiptId :: db.ran } := by
  rw [insertScript] at h
  split at h
  next l hl hs =>
    obtain ⟨rfl, rfl⟩ := Prod.mk.inj (ok.inj h)
    exact .inr ⟨l, hl, hs, rfl, rfl⟩
  next =>
    obtain ⟨rfl, rfl⟩ := Prod.mk.inj (ok.inj h)
    exact .inl ⟨rfl, rfl⟩

theorem finishRow_ok {receiptId : Text} {b : Bool}
    (h : finishRow receiptId t now db = .ok (u, b)) :
    (u = db ∧ b = false) ∨
      ∃ l r, db.holdsAt t now = some l ∧ db.scripts receiptId = some r ∧ b = true ∧ u = { db with
        scripts := Function.update db.scripts receiptId (some { r with state := .done }) } := by
  rw [finishRow] at h
  split at h
  next l r hl hr =>
    split at h
    · obtain ⟨rfl, rfl⟩ := Prod.mk.inj (ok.inj h)
      exact .inr ⟨l, r, hl, hr, rfl, rfl⟩
    · obtain ⟨rfl, rfl⟩ := Prod.mk.inj (ok.inj h)
      exact .inl ⟨rfl, rfl⟩
  next =>
    obtain ⟨rfl, rfl⟩ := Prod.mk.inj (ok.inj h)
    exact .inl ⟨rfl, rfl⟩

theorem insertPublication_ok {p : PublicationReceipt}
    (h : insertPublication p db = .ok (u, ())) :
    ∃ l row, db.holdsAt p.token p.acceptedAtMs = some l ∧ l.revision < maxI64 ∧ row ∈ db.jobs ∧
      row.jobId = l.jobId ∧ row.revision = p.expectedJobRevision ∧
      let closed := { db.setLease { l with revision := l.revision + 1, terminal := true } with
        publications := db.publications ++ [p]
        accepted := ⟨p, l.jobId, l.kind⟩ :: db.accepted }
      (l.kind = segmentKind ∧ u = { closed with
          ranges := db.ranges ++ [⟨l.resource, l.jobId, l.scopeJson, p.resultId, p.resultRef⟩] } ∨
        l.kind ≠ segmentKind ∧
          u = { closed.noteChange p.expectedJobRevision none row
              { row with intent := p.resultJob, revision := row.revision + 1 } with
            jobs := db.jobs.map fun r =>
              if r.jobId = l.jobId then
                { r with intent := p.resultJob, revision := r.revision + 1 }
              else r }) := by
  rw [insertPublication] at h
  split at h
  · exact absurd h (by simp)
  next l hl =>
    split at h
    · exact absurd h (by simp)
    next row hrow =>
      have hmem := mem_of_find?_eq_some hrow
      have hmatch := find?_some hrow
      simp only [Bool.and_eq_true, decide_eq_true_eq] at hmatch
      split at h
      · exact absurd h (by simp)
      · obtain ⟨revision, hrev, h⟩ := ok_of_bind h
        obtain ⟨hlt, rfl⟩ := nextI64_ok hrev
        refine ⟨l, row, hl, hlt, hmem, hmatch.1.1.1, hmatch.1.2, ?_⟩
        simp only at h
        split at h
        next hkind =>
          split at h
          · exact absurd h (by simp)
          · exact .inl ⟨hkind, (congrArg Prod.fst (ok.inj h)).symm⟩
        next hkind =>
          obtain ⟨next, hnext, h⟩ := ok_of_bind h
          obtain ⟨-, rfl⟩ := nextI64_ok hnext
          exact .inr ⟨hkind, (congrArg Prod.fst (ok.inj h)).symm⟩

variable {expected applied : Nat}

theorem insertCommand_ok {commandId : Text} {next : Job}
    {deleted : Bool} (hn : (rowIds db.jobs).Nodup)
    (h : insertCommand commandId id expected applied next deleted basis db = .ok (u, ())) :
    ∃ row ∈ db.jobs, row.jobId = id ∧ row.revision = expected ∧ db.commands commandId = none ∧
      u = { db.noteChange expected basis row
              { row with revision := applied, intent := next, deleted := deleted } with
        commands := Function.update db.commands commandId (some ⟨id, expected, applied⟩)
        jobs := db.jobs.map fun r => if r.jobId = id ∧ r.revision = expected then
          { r with revision := applied, intent := next, deleted := deleted } else r } := by
  obtain ⟨jobs, hexec, h⟩ := ok_of_bind h
  rw [Statement.exec] at hexec
  split at hexec
  next hany =>
    obtain rfl := ok.inj hexec
    obtain ⟨row, hrow, hm⟩ := any_eq_true.mp hany
    simp only [Bool.and_eq_true, decide_eq_true_eq] at hm
    have hfind : findRow db.jobs id = some row := by
      rw [← hm.1]
      exact find?_key_eq hn hrow
    split at h
    · exact absurd h (by simp)
    next hnew =>
      simp only [hfind] at h
      refine ⟨row, hrow, hm.1, hm.2, by simpa using hnew, ?_⟩
      exact (congrArg Prod.fst (ok.inj h)).symm
  · exact absurd hexec (by simp)

theorem insertJob_ok {row : ControlRow} (h : insertJob row db = .ok (u, ())) :
    row.jobId ∉ rowIds db.jobs ∧
      u = { db with jobs := db.jobs ++ [row], versions := row :: db.versions } := by
  rw [insertJob, Statement.exec] at h
  split at h
  · exact absurd h (by simp [Except.map])
  next hnew => exact ⟨hnew, (congrArg Prod.fst (ok.inj h)).symm⟩

theorem nodup_insertJob {row : ControlRow} (hn : (rowIds db.jobs).Nodup)
    (h : insertJob row db = .ok (u, ())) : (rowIds u.jobs).Nodup := by
  obtain ⟨hnew, rfl⟩ := insertJob_ok h
  change (rowIds (db.jobs ++ [row])).Nodup
  rw [rowIds, map_append]
  refine nodup_append.mpr ⟨hn, nodup_singleton _, ?_⟩
  intro a ha b hb he
  rw [he, mem_singleton.mp hb] at ha
  exact hnew ha

theorem nodup_insertCommand {commandId : Text} {next : Job}
    {deleted : Bool} (hn : (rowIds db.jobs).Nodup)
    (h : insertCommand commandId id expected applied next deleted basis db = .ok (u, ())) :
    (rowIds u.jobs).Nodup := by
  obtain ⟨row, -, -, -, -, rfl⟩ := insertCommand_ok hn h
  have hkeys : ∀ r : ControlRow, (if r.jobId = id ∧ r.revision = expected then
      { r with revision := applied, intent := next, deleted := deleted } else r).jobId = r.jobId := by
    intro r
    split <;> rfl
  simpa [rowIds, Function.comp_def, hkeys] using hn

/-! ### Rows are never forgotten -/

theorem grows_of_change {row after : ControlRow} (hn : (rowIds db.jobs).Nodup)
    (hrow : row ∈ db.jobs) {f : ControlRow → ControlRow} {expected : Nat} (hafter : f row = after)
    (hid : after.jobId = row.jobId) (hinc : after.incarnation = row.incarnation)
    (hrev : after.revision = row.revision + 1) (hother : ∀ r, r.jobId ≠ row.jobId → f r = r)
    (hjobs : u.jobs = db.jobs.map f) (hv : u.versions = after :: db.versions)
    (hc : u.changes = ⟨expected, basis, row, after⟩ :: db.changes) : Grows db u where
  versions r hr := hv ▸ mem_cons_of_mem _ hr
  changes := hc ▸ suffix_cons _ _
  rows := by
    intro r hr
    have hmem : f r ∈ u.jobs := hjobs ▸ mem_map_of_mem hr
    rw [changesOf, changesOf, hc, filter_cons]
    by_cases hsame : r.jobId = row.jobId
    · obtain rfl := row_unique hn hr hrow hsame
      rw [if_pos (decide_eq_true rfl), length_cons]
      rw [hafter] at hmem
      exact ⟨after, hmem, hid, hinc, by omega⟩
    · rw [if_neg (by simpa using fun he : row.jobId = r.jobId => hsame he.symm)]
      rw [hother r hsame] at hmem
      exact ⟨r, hmem, rfl, rfl, rfl⟩

theorem grows_insertPublication {p : PublicationReceipt} (hn : (rowIds db.jobs).Nodup)
    (h : insertPublication p db = .ok (u, ())) : Grows db u := by
  obtain ⟨l, row, -, -, hrow, hid, -, hu⟩ := insertPublication_ok h
  rcases hu with ⟨-, rfl⟩ | ⟨-, rfl⟩
  · exact .of_eq rfl rfl rfl
  · refine grows_of_change hn hrow ?_ ?_ ?_ ?_ ?_ rfl rfl rfl
    · rw [if_pos hid]
    · rfl
    · rfl
    · rfl
    · exact fun r hne => if_neg fun he => hne (he.trans hid.symm)

theorem grows_insertCommand {commandId : Text} {next : Job}
    {deleted : Bool} (hn : (rowIds db.jobs).Nodup)
    (happlied : applied = expected + 1)
    (h : insertCommand commandId id expected applied next deleted basis db = .ok (u, ())) :
    Grows db u := by
  obtain ⟨row, hrow, hid, hrev, -, rfl⟩ := insertCommand_ok hn h
  refine grows_of_change hn hrow ?_ ?_ ?_ ?_ ?_ rfl rfl rfl
  · rw [if_pos ⟨hid, hrev⟩]
  · rfl
  · rfl
  · exact happlied.trans (by rw [hrev])
  · exact fun r hne => if_neg fun he => hne (he.1.trans hid.symm)

theorem grows_insertJob {row : ControlRow} (h : insertJob row db = .ok (u, ())) : Grows db u := by
  obtain ⟨-, rfl⟩ := insertJob_ok h
  exact ⟨fun r hr => mem_cons_of_mem _ hr, suffix_refl _,
    fun r hr => ⟨r, mem_append_left _ hr, rfl, rfl, rfl⟩⟩

/-- The statements about leases and scripts leave the jobs and their books alone. -/
def SameJobs (db u : ControlDb) : Prop :=
  u.versions = db.versions ∧ u.jobs = db.jobs ∧ u.changes = db.changes ∧ u.commands = db.commands

theorem SameJobs.grows (h : SameJobs db u) : Grows db u := .of_eq h.1 h.2.1 h.2.2.1

theorem sameJobs_upsertLease {c : Claim} {now expiry : Int} {t : Option LeaseToken}
    (h : upsertLease c now expiry db = .ok (u, t)) : SameJobs db u := by
  rcases upsertLease_ok h with ⟨-, -, rfl, -⟩ | ⟨l, -, -, rfl, -⟩ | ⟨-, rfl, -⟩
  · exact ⟨rfl, rfl, rfl, rfl⟩
  · exact ⟨rfl, rfl, rfl, rfl⟩
  · exact ⟨rfl, rfl, rfl, rfl⟩

theorem sameJobs_renewLease {now expiry : Int} {t' : Option LeaseToken}
    (h : renewLease t now expiry db = .ok (u, t')) : SameJobs db u := by
  rcases renewLease_ok h with ⟨-, rfl, -⟩ | ⟨l, -, -, rfl⟩
  · exact ⟨rfl, rfl, rfl, rfl⟩
  · exact ⟨rfl, rfl, rfl, rfl⟩

theorem sameJobs_releaseLease {b : Bool}
    (h : releaseLease t now db = .ok (u, b)) : SameJobs db u := by
  rcases releaseLease_ok h with ⟨-, rfl, -⟩ | ⟨l, -, -, rfl⟩
  · exact ⟨rfl, rfl, rfl, rfl⟩
  · exact ⟨rfl, rfl, rfl, rfl⟩

theorem sameJobs_insertScript {receiptId : Text} {b : Bool}
    (h : insertScript receiptId t now db = .ok (u, b)) : SameJobs db u := by
  rcases insertScript_ok h with ⟨rfl, -⟩ | ⟨l, -, -, -, rfl⟩
  · exact ⟨rfl, rfl, rfl, rfl⟩
  · exact ⟨rfl, rfl, rfl, rfl⟩

theorem sameJobs_finishRow {receiptId : Text} {b : Bool}
    (h : finishRow receiptId t now db = .ok (u, b)) : SameJobs db u := by
  rcases finishRow_ok h with ⟨rfl, -⟩ | ⟨l, r, -, -, -, rfl⟩
  · exact ⟨rfl, rfl, rfl, rfl⟩
  · exact ⟨rfl, rfl, rfl, rfl⟩

end ControlDb

/-! ### The rule -/

open ControlDb

/-- A property that each statement keeps. -/
structure Preserved (I : ControlDb → Prop) : Prop where
  nodup : ∀ {db}, I db → (rowIds db.jobs).Nodup
  current : ∀ {db}, I db → ∀ r ∈ db.jobs, r ∈ db.versions
  upsert : ∀ {c now expiry db u t}, I db → upsertLease c now expiry db = .ok (u, t) → I u
  renew : ∀ {t now expiry db u t'}, I db → renewLease t now expiry db = .ok (u, t') → I u
  release : ∀ {t now db u b}, I db → releaseLease t now db = .ok (u, b) → I u
  publish : ∀ {p db u}, I db → insertPublication p db = .ok (u, ()) → I u
  command : ∀ {commandId id expected applied next deleted basis db u}, I db →
    applied = expected + 1 → Basis db id expected basis →
    insertCommand commandId id expected applied next deleted basis db = .ok (u, ()) → I u
  insert : ∀ {row db u}, I db → insertJob row db = .ok (u, ()) → I u
  begin : ∀ {receiptId t now db u b}, I db → insertScript receiptId t now db = .ok (u, b) → I u
  finish : ∀ {receiptId t now db u b}, I db → finishRow receiptId t now db = .ok (u, b) → I u

theorem statementFor_receipt {digest : Job → Nat} {rows : List ControlRow} {c : Change}
    {ss : List Statement} (h : statementFor digest rows c = .ok ss) {next : Job} {deleted : Bool}
    (hs : .receipt id expected applied next deleted ∈ ss) :
    id = c.1 ∧ ∃ row, findRow rows c.1 = some row ∧ row.revision = expected := by
  obtain ⟨cid, desired⟩ := c
  obtain ⟨v, hv, h⟩ := ok_of_bind h
  obtain rfl := i64Value_ok hv
  cases hrow : findRow rows v with
  | none =>
    cases desired with
    | none => rw [hrow] at h; exact absurd h (by simp)
    | some intent =>
      rw [hrow] at h
      obtain rfl := ok.inj h
      exact absurd (mem_singleton.mp hs) (by simp)
  | some row =>
    rw [hrow] at h
    simp only at h
    split at h
    · obtain rfl := ok.inj h
      exact absurd hs not_mem_nil
    · obtain ⟨e, he, h⟩ := ok_of_bind h
      obtain ⟨a, ha, h⟩ := ok_of_bind h
      obtain rfl := ok.inj h
      obtain rfl := i64Value_ok he
      obtain rfl := i64Value_ok ha
      have heq := mem_singleton.mp hs
      simp only [Statement.receipt.injEq] at heq
      obtain ⟨rfl, rfl, -, -, -⟩ := heq
      exact ⟨rfl, row, rfl, rfl⟩

namespace Preserved

open ControlStore

variable {I : ControlDb → Prop} {D : Digests}

section

variable {s : ControlDb}

theorem orFail_safe {β : Type} {x : Except Text β} {next : β → Prog ControlDb Answer}
    (h : ∀ b, x = .ok b → (next b).Safe I Grows s) : (orFail x next).Safe I Grows s := by
  cases x with
  | error e => trivial
  | ok b => exact h b rfl

theorem query_safe {β : Type} {read : ControlDb → β} {next : β → Prog ControlDb Answer}
    (h : ∀ t, Grows s t → I t → (next (read t)).Safe I Grows t) :
    (Prog.query read next).Safe I Grows s := Prog.safe_query Grows.refl h

theorem transact_safe {β : Type} {f : ControlDb → Except Text (ControlDb × β)}
    {next : Except Text β → Prog ControlDb Answer}
    (hf : ∀ t u b, Grows s t → I t → f t = .ok (u, b) → I u ∧ Grows t u)
    (hnext : ∀ r t, I t → (next r).Safe I Grows t) : (Prog.transact f next).Safe I Grows s := by
  refine Prog.safe_transact Grows.refl ?_ ?_
  · intro t u b hst ht hu
    obtain ⟨hI, hg⟩ := hf t u b hst ht hu
    exact ⟨hI, hg, hnext _ u hI⟩
  · exact fun t e _ ht _ => hnext _ t ht

theorem safe_applyCommandThen (h : Preserved I) {commandId : Text} {expected : Nat}
    {nextIntent : Job} {deleted : Bool}
    {next : MutationOutcome → Prog ControlDb Answer} (hb : Basis s id expected basis)
    (hnext : ∀ o t, I t → (next o).Safe I Grows t) :
    (applyCommandThen commandId id expected nextIntent deleted basis now next).Safe I Grows s := by
  refine query_safe fun t hst ht => ?_
  cases t.commands commandId with
  | some r => exact hnext _ t ht
  | none =>
    refine orFail_safe fun _ _ => orFail_safe fun applied ha => orFail_safe fun _ _ =>
      orFail_safe fun _ _ => orFail_safe fun _ _ => ?_
    have happlied : applied = expected + 1 := by
      rw [nextRevision] at ha
      split at ha
      · exact (ok.inj ha).symm
      · exact absurd ha (by simp)
    refine transact_safe ?_ ?_
    · intro v u b htv hv hu
      have hbasis := hb.mono (Grows.trans s t v hst htv)
      exact ⟨h.command hv happlied hbasis hu, grows_insertCommand (h.nodup hv) happlied hu⟩
    · intro r v hv
      cases r with
      | ok b => exact hnext _ v hv
      | error e =>
        simp only
        split
        · exact hnext _ v hv
        · trivial

theorem safe_reconcileAttempts (h : Preserved I) {job : Option Job}
    (attempts : Nat) : ∀ s, I s → (reconcileAttempts D id job now attempts).Safe I Grows s := by
  induction attempts with
  | zero => exact fun s _ => trivial
  | succ attempts ih =>
    intro s hs
    refine orFail_safe fun v hv => ?_
    refine query_safe fun t _ ht => ?_
    split
    next =>
      cases job with
      | none => trivial
      | some intent =>
        refine orFail_safe fun _ _ => ?_
        refine transact_safe ?_ ?_
        · intro v u b _ hv hu
          rw [seedRow] at hu
          split at hu
          · obtain ⟨rfl, -⟩ := Prod.mk.inj (ok.inj hu)
            exact ⟨hv, Grows.refl _⟩
          · exact ⟨h.insert hv hu, grows_insertJob hu⟩
        · intro r v hv
          exact orFail_safe fun _ _ => ih v hv
    next row hrow =>
      simp only
      split
      · trivial
      · have hmem := mem_of_find?_eq_some hrow
        have hid : row.jobId = id := by simpa using find?_some hrow
        refine h.safe_applyCommandThen ?_ ?_
        · intro b hb
          obtain rfl := Option.some.inj hb
          exact ⟨h.current ht _ hmem, hid, rfl⟩
        · intro o v hv
          cases o with
          | applied revision => trivial
          | duplicate revision => trivial
          | conflict => exact ih v hv

theorem runRequests_keeps (h : Preserved I) {ss : List RequestStatement} {db u : ControlDb}
    (hI : I db) (hss : ∀ s ∈ ss, s.Valid db) (hu : runRequests ss db = .ok (u, ())) :
    I u ∧ Grows db u := by
  induction ss generalizing db with
  | nil =>
    obtain ⟨rfl, -⟩ := Prod.mk.inj (ok.inj hu)
    exact ⟨hI, Grows.refl _⟩
  | cons s ss ih =>
    obtain ⟨mid, hmid, hu⟩ := ok_of_bind hu
    have hstep : I mid ∧ Grows db mid := by
      have hvalid := hss s mem_cons_self
      cases s with
      | insert row =>
        obtain ⟨r, hrow, rfl⟩ := ok_of_map hmid
        exact ⟨h.insert hI hrow, grows_insertJob hrow⟩
      | receipt commandId id expected next deleted basis =>
        obtain ⟨r, hc, rfl⟩ := ok_of_map hmid
        exact ⟨h.command hI rfl hvalid hc, grows_insertCommand (h.nodup hI) rfl hc⟩
    obtain ⟨hu', hg⟩ := ih hstep.1 (fun t ht => (hss t (mem_cons_of_mem _ ht)).mono hstep.2) hu
    exact ⟨hu', hstep.2.trans db mid u hg⟩

theorem safe_readChanges (h : Preserved I) (changes : List Change) :
    ∀ ss s, I s → (∀ r ∈ ss, r.Valid s) → (readChanges D changes ss).Safe I Grows s := by
  induction changes with
  | nil =>
    intro ss s hs hss
    rw [readChanges]
    split
    · trivial
    · refine transact_safe ?_ ?_
      · intro t u b hst ht hu
        exact h.runRequests_keeps ht (fun r hr => (hss r hr).mono hst) hu
      · intro r t _
        cases r <;> trivial
  | cons c changes ih =>
    intro ss s hs hss
    refine query_safe fun t hst ht => ?_
    refine orFail_safe fun asked hasked => ?_
    refine ih _ t ht ?_
    intro r hr
    rcases mem_append.mp hr with hr | hr
    · exact (hss r hr).mono hst
    · obtain ⟨q, hq, rfl⟩ := mem_map.mp hr
      cases q with
      | insert row => trivial
      | receipt id expected applied next deleted =>
        obtain ⟨rfl, row, hrow, hrev⟩ := statementFor_receipt hasked hq
        intro b hb
        obtain rfl : row = b := Option.some.inj (hrow.symm.trans hb)
        exact ⟨h.current ht _ (mem_of_find?_eq_some hrow),
          by simpa using find?_some hrow, hrev⟩

end

/-- **Every call is safe.** -/
theorem safe (h : Preserved I) {p : Prog ControlDb Answer} (hp : IsCall D p) (s : ControlDb)
    (hs : I s) : p.Safe I Grows s := by
  cases hp with
  | acquire c now ttl =>
    refine orFail_safe fun _ _ => orFail_safe fun now _ => orFail_safe fun expiry _ =>
      orFail_safe fun _ _ => orFail_safe fun _ _ => ?_
    refine transact_safe ?_ ?_
    · exact fun t u b _ ht hu => ⟨h.upsert ht hu, (sameJobs_upsertLease hu).grows⟩
    · intro r t ht
      refine orFail_safe fun b _ => ?_
      cases b with
      | some t => trivial
      | none =>
        refine query_safe fun v _ _ => ?_
        split <;> trivial
  | renew t now ttl =>
    refine orFail_safe fun _ _ => orFail_safe fun now _ => orFail_safe fun expiry _ =>
      orFail_safe fun _ _ => ?_
    refine transact_safe ?_ fun r t _ => orFail_safe fun _ _ => trivial
    exact fun t u b _ ht hu => ⟨h.renew ht hu, (sameJobs_renewLease hu).grows⟩
  | release t now =>
    refine orFail_safe fun now _ => orFail_safe fun _ _ => ?_
    refine transact_safe ?_ fun r t _ => orFail_safe fun _ _ => trivial
    exact fun t u b _ ht hu => ⟨h.release ht hu, (sameJobs_releaseLease hu).grows⟩
  | publishResult p =>
    refine query_safe fun t _ ht => ?_
    split
    next => trivial
    next =>
      refine orFail_safe fun _ _ => orFail_safe fun _ _ => orFail_safe fun _ _ => ?_
      refine transact_safe ?_ ?_
      · exact fun t u b _ ht hu => ⟨h.publish ht hu, grows_insertPublication (h.nodup ht) hu⟩
      · intro r t _
        cases r with
        | ok b => trivial
        | error e =>
          simp only
          split <;> trivial
  | beginScript receiptId t now =>
    refine orFail_safe fun now _ => orFail_safe fun _ _ => ?_
    refine transact_safe ?_ ?_
    · exact fun t u b _ ht hu => ⟨h.begin ht hu, (sameJobs_insertScript hu).grows⟩
    · intro r t _
      refine orFail_safe fun b _ => ?_
      cases b with
      | true => trivial
      | false =>
        refine query_safe fun v _ _ => ?_
        split <;> trivial
  | finishScript receiptId t now =>
    refine orFail_safe fun now _ => orFail_safe fun _ _ => ?_
    refine transact_safe ?_ ?_
    · exact fun t u b _ ht hu => ⟨h.finish ht hu, (sameJobs_finishRow hu).grows⟩
    · intro r t _
      refine orFail_safe fun b _ => ?_
      cases b with
      | true => trivial
      | false =>
        refine query_safe fun v _ _ => ?_
        split <;> trivial
  | applyCommand commandId id expected nextIntent deleted now =>
    refine h.safe_applyCommandThen ?_ fun _ _ _ => trivial
    intro b hb
    nomatch hb
  | reconcileJob id job now => exact h.safe_reconcileAttempts 4 s hs
  | commitJobDelta changes now =>
    rw [ControlStore.commitJobDelta]
    split
    · trivial
    · exact orFail_safe fun _ _ =>
        h.safe_readChanges changes [] s hs fun r hr => absurd hr not_mem_nil
  | commitUrlResolution job now =>
    refine orFail_safe fun id hid => ?_
    refine query_safe fun t _ ht => ?_
    split
    next => trivial
    next row hrow =>
      split
      · trivial
      · refine h.safe_applyCommandThen ?_ ?_
        · intro b hb
          obtain rfl := Option.some.inj hb
          exact ⟨h.current ht _ (mem_of_find?_eq_some hrow),
            by simpa using find?_some hrow, rfl⟩
        · intro o v _
          cases o <;> trivial

variable {s : Interleave.Sys ControlDb Answer}

/-- **What each statement keeps holds for any number of callers.** -/
theorem reached (h : Preserved I) (h0 : ∀ db, Fresh db → I db) (hs : Reached D s) : I s.shared :=
  (Interleave.Reached.safe Grows.refl Grows.trans h0 (fun _ hp => h.safe hp) hs).1

theorem grows (h : Preserved I) (h0 : ∀ db, Fresh db → I db) (hs : Reached D s)
    (a : Interleave.Act ControlDb Answer) : Grows s.shared (s.after a).shared :=
  Interleave.Reached.guarantee Grows.refl Grows.trans h0 (fun _ hp => h.safe hp) hs a

end Preserved

/-! ### A store with one job -/

def storeOfOne : ControlDb :=
  let job := QueueState.newJob 864000 1 .nzb (text "one") (text "one") none 0 .queued
  let row : ControlRow := ⟨1, text "job-1", 1, job, false⟩
  { jobs := [row]
    leases := fun _ => none
    commands := fun _ => none
    publications := []
    ranges := []
    scripts := fun _ => none
    issued := []
    accepted := []
    ran := []
    versions := [row]
    changes := [] }

theorem fresh_storeOfOne : ControlStore.Fresh storeOfOne :=
  ⟨by decide, fun _ => rfl, fun _ => rfl, fun _ => rfl, rfl, rfl, rfl, rfl, rfl, rfl, rfl⟩

def constDigests : Digests := ⟨fun _ => 0, fun _ _ _ _ => 0, fun _ _ _ => 0⟩

end Nzbd
