import Nzbd.Lib.Trace
import Nzbd.History.Format

/-!
# Passes between local operations

A pass reads the logs without a lock, and it takes many transactions.  The local
operations hold the mutation lock from beginning to end, and the generation counts both
ends.  A pass commits nothing and publishes nothing unless the lock is free and the
generation is the one that it has captured at its beginning.

* `commit_fenced`: since a pass that commits has begun no operation has ended.
* `publish_eq_reconcile`: a pass that publishes is `reconcile`, done at once.
* `repaired_of_clean`: once an operation has failed, the repair flag is cleared only by
  a pass that has begun after it.
* `replay_fenced` is all of it.
-/

namespace Nzbd.History

open List Trace
open Lines
open State (lf)

/-! ### Batches -/

/-- A transaction of a pass. -/
inductive Batch
  | tombstones (ks : List Key)
  | entries (es : List HistoryEntry)

def Batch.apply (db : Index) : Batch → Index
  | tombstones ks => ks.foldl Index.replayTombstone db
  | entries es => es.foldl Index.replayEntry db

/-- Cut a list wherever what has been taken is enough. -/
def cut {α : Type*} (enough : List α → Bool) : List α → List α → List (List α)
  | [], acc => if acc.isEmpty then [] else [acc]
  | a :: as, acc =>
    if enough (acc ++ [a]) then (acc ++ [a]) :: cut enough as [] else cut enough as (acc ++ [a])

theorem flatten_cut {α : Type*} (enough : List α → Bool) (l acc : List α) :
    (cut enough l acc).flatten = acc ++ l := by
  induction l generalizing acc with
  | nil =>
    rw [cut]
    split
    next h => rw [isEmpty_iff.mp h]; rfl
    next => simp
  | cons a l ih =>
    rw [cut]
    split
    · rw [flatten_cons, ih, append_assoc]
      rfl
    · rw [ih, append_assoc]
      rfl

section Work

variable (c : LogFormat) (s : HistorySync) (full : Bool) (floor : Int)
  (files : List (Text × LogFile))

def passTombstones : List Key :=
  (readDeltas c.toLogCodec s full floor files).flatMap (·.scan.tombstones)

def passEntries : List HistoryEntry :=
  let keys := (affected c.toLogCodec s full floor files).filter fun k =>
    floor ≤ k.2 && k ∉ passTombstones c s full floor files
  ((keys.dedup.filterMap (mergedValue c.toLogCodec s full floor files)).insertionSort
    fun a b => a.1 ≤ b.1).map (·.2)

/-- What a pass has to commit: the tombstones, sixteen at a time, and then the entries,
no more than sixteen and about 128 KiB at a time. -/
def passBatches : List Batch :=
  (cut (fun ks => 16 ≤ ks.length) (passTombstones c s full floor files).dedup []).map .tombstones ++
    (cut (fun es => 16 ≤ es.length || 128 * 1024 ≤ (es.map fun e => (c.entryLine e).length).sum)
      (passEntries c s full floor files) []).map .entries

end Work

/-! ### The machine -/

/-- A local operation that holds the lock: what it found of the repair flag, if it is
guarded, and what it has to write. -/
structure Held where
  saved : Option Bool
  todo : List Write

/-- How far a pass is. -/
inductive Phase
  | captured
  | opening (paths : List Text) (files : List (Text × LogFile))
  | inspected (full : Bool) (files : List (Text × LogFile))
  | committing (full : Bool) (files : List (Text × LogFile)) (floor : Int) (todo : List Batch)

structure Pass where
  generation : Nat
  quiet : Bool
  phase : Phase

structure Host where
  own : Text
  dir : LogDir
  retention : Retention
  sync : HistorySync
  generation : Nat
  holder : Option Held
  pass : Option Pass

inductive HostEvent
  /-- An operation takes the lock. -/
  | begin (op : LocalOp)
  | write (ino modified : Nat)
  | finish
  | fail
  /-- A pass captures the generation. -/
  | capture (quiet : Bool)
  | list
  | openFile
  | inspect (elapsed : Bool)
  | read (now : Int)
  | batch
  | publish
  /-- A pass fails, or is interrupted. -/
  | abort
  /-- Somebody else writes to the logs. -/
  | logs (ch : LogChange)

/-- The operation has ended. -/
def HostEvent.ends : HostEvent → Bool
  | finish | fail => true
  | _ => false

def HostEvent.captures : HostEvent → Bool
  | capture _ => true
  | _ => false

namespace Host

/-- The lock is free, and nothing was changed since the generation was captured. -/
def Checked (h : Host) (generation : Nat) : Prop :=
  h.holder.isNone = true ∧ generation = h.generation

instance (h : Host) (g : Nat) : Decidable (h.Checked g) := inferInstanceAs (Decidable (_ ∧ _))

def goTo (h : Host) (generation : Nat) (quiet : Bool) (phase : Phase) : Host := { h with
  pass := some ⟨generation, quiet, phase⟩ }

variable (c : LogFormat)

/-- What the operation writes next. -/
def performed (h : Host) (ino modified : Nat) : Write → Host
  | .index db => { h with sync := { h.sync with db := db } }
  | w => { h with
      dir := (w.change h.own h.dir ino modified).elim h.dir fun ch => ch.apply h.dir }

/-- What a pass leaves behind that has committed everything. -/
def published (h : Host) (full : Bool) (files : List (Text × LogFile)) (floor : Int) :
    HistorySync :=
  { reconcile c.toLogCodec h.sync full files floor with db := h.sync.db }

def step (h : Host) : HostEvent → Option Host
  | .begin op => if h.holder.isNone then some { h with
      generation := h.generation + 1
      sync := { h.sync with dirty := op.guarded || h.sync.dirty }
      holder := some ⟨if op.guarded then some h.sync.dirty else none,
        op.writes c h.retention h.dir h.own h.sync.db⟩ } else none
  | .write ino modified => match h.holder with
    | some ⟨saved, w :: ws⟩ => some { h.performed ino modified w with holder := some ⟨saved, ws⟩ }
    | _ => none
  | .finish => match h.holder with
    | some ⟨saved, []⟩ => some { h with
        generation := h.generation + 1
        sync := { h.sync with dirty := saved.getD h.sync.dirty }
        holder := none }
    | _ => none
  | .fail => if h.holder.isSome then some { h with
      generation := h.generation + 1
      holder := none } else none
  | .capture quiet => if h.pass.isNone then some (h.goTo h.generation quiet .captured) else none
  | .list => match h.pass with
    | some ⟨g, q, .captured⟩ => some (h.goTo g q (.opening ((logPaths h.dir).map (·.1)) []))
    | _ => none
  | .openFile => match h.pass with
    | some ⟨g, q, .opening (path :: paths) files⟩ =>
      if g = h.generation then (h.dir.find? fun f => f.1 = path).map fun f =>
        h.goTo g q (.opening paths (files ++ [f])) else none
    | _ => none
  | .inspect elapsed => match h.pass with
    | some ⟨g, q, .opening [] files⟩ =>
      let full := !q || !h.sync.initialized || h.sync.dirty || elapsed
      some (if !full && h.sync.fingerprints = files.map fingerprint then { h with pass := none }
        else h.goTo g q (.inspected full files))
    | _ => none
  | .read now => match h.pass with
    | some ⟨g, q, .inspected full files⟩ =>
      let floor := ingestFloor h.sync.db h.retention now
      some (h.goTo g q (.committing full files floor (passBatches c h.sync full floor files)))
    | _ => none
  | .batch => match h.pass with
    | some ⟨g, q, .committing full files floor (b :: bs)⟩ =>
      if h.Checked g then some { h.goTo g q (.committing full files floor bs) with
        sync := { h.sync with db := b.apply h.sync.db } } else none
    | _ => none
  | .publish => match h.pass with
    | some ⟨g, _, .committing full files floor []⟩ =>
      if h.Checked g then some { h with
        sync := h.published c full files floor
        pass := none } else none
    | _ => none
  | .abort => if h.pass.isSome then some { h with pass := none } else none
  | .logs ch => some { h with dir := ch.apply h.dir }

/-- Nobody holds the lock, and no pass is on its way. -/
def Idle (h : Host) : Prop := h.holder = none ∧ h.pass = none

end Host

/-! ### What a step does -/

/-- The steps, one constructor for each of their outcomes. -/
inductive Moves (c : LogFormat) (h : Host) : HostEvent → Host → Prop
  | begin {op : LocalOp} (free : h.holder = none) :
    Moves c h (.begin op) { h with
      generation := h.generation + 1
      sync := { h.sync with dirty := op.guarded || h.sync.dirty }
      holder := some ⟨if op.guarded then some h.sync.dirty else none,
        op.writes c h.retention h.dir h.own h.sync.db⟩ }
  | write {ino modified : Nat} {saved : Option Bool} {w : Write} {ws : List Write}
      (held : h.holder = some ⟨saved, w :: ws⟩) :
    Moves c h (.write ino modified) { h.performed ino modified w with holder := some ⟨saved, ws⟩ }
  | finish {saved : Option Bool} (held : h.holder = some ⟨saved, []⟩) :
    Moves c h .finish { h with
      generation := h.generation + 1
      sync := { h.sync with dirty := saved.getD h.sync.dirty }
      holder := none }
  | fail {o : Held} (held : h.holder = some o) :
    Moves c h .fail { h with generation := h.generation + 1, holder := none }
  | capture {quiet : Bool} (idle : h.pass = none) :
    Moves c h (.capture quiet) (h.goTo h.generation quiet .captured)
  | list {g : Nat} {q : Bool} {paths : List Text} (pass : h.pass = some ⟨g, q, .captured⟩) :
    Moves c h .list (h.goTo g q (.opening paths []))
  | openFile {g : Nat} {q : Bool} {path : Text} {paths : List Text}
      {files files' : List (Text × LogFile)} (pass : h.pass = some ⟨g, q, .opening (path :: paths) files⟩) :
    Moves c h .openFile (h.goTo g q (.opening paths files'))
  | inspect {elapsed : Bool} {g : Nat} {q full : Bool} {files : List (Text × LogFile)}
      (pass : h.pass = some ⟨g, q, .opening [] files⟩) :
    Moves c h (.inspect elapsed) (h.goTo g q (.inspected full files))
  | unchanged {elapsed : Bool} {g : Nat} {q : Bool} {files : List (Text × LogFile)}
      (pass : h.pass = some ⟨g, q, .opening [] files⟩) :
    Moves c h (.inspect elapsed) { h with pass := none }
  | read {now floor : Int} {g : Nat} {q full : Bool} {files : List (Text × LogFile)}
      (pass : h.pass = some ⟨g, q, .inspected full files⟩) :
    Moves c h (.read now)
      (h.goTo g q (.committing full files floor (passBatches c h.sync full floor files)))
  | batch {g : Nat} {q full : Bool} {files : List (Text × LogFile)} {floor : Int} {b : Batch}
      {bs : List Batch} (pass : h.pass = some ⟨g, q, .committing full files floor (b :: bs)⟩)
      (checked : h.Checked g) :
    Moves c h .batch { h.goTo g q (.committing full files floor bs) with
      sync := { h.sync with db := b.apply h.sync.db } }
  | publish {g : Nat} {q full : Bool} {files : List (Text × LogFile)} {floor : Int}
      (pass : h.pass = some ⟨g, q, .committing full files floor []⟩) (checked : h.Checked g) :
    Moves c h .publish { h with
      sync := h.published c full files floor
      pass := none }
  | abort {p : Pass} (pass : h.pass = some p) : Moves c h .abort { h with pass := none }
  | logs {ch : LogChange} : Moves c h (.logs ch) { h with dir := ch.apply h.dir }

section Step

variable {c : LogFormat} {h t : Host} {e : HostEvent}

theorem moves_of_step (hstep : h.step c e = some t) : Moves c h e t := by
  cases e with
  | begin op =>
    rw [Host.step] at hstep
    split at hstep
    next hfree =>
      obtain rfl := Option.some.inj hstep
      exact .begin (Option.isNone_iff_eq_none.mp hfree)
    next => nomatch hstep
  | write ino modified =>
    rw [Host.step] at hstep
    split at hstep
    next hheld =>
      obtain rfl := Option.some.inj hstep
      exact .write hheld
    next => nomatch hstep
  | finish =>
    rw [Host.step] at hstep
    split at hstep
    next hheld =>
      obtain rfl := Option.some.inj hstep
      exact .finish hheld
    next => nomatch hstep
  | fail =>
    rw [Host.step] at hstep
    split at hstep
    next hheld =>
      obtain rfl := Option.some.inj hstep
      obtain ⟨o, ho⟩ := Option.isSome_iff_exists.mp hheld
      exact .fail ho
    next => nomatch hstep
  | capture quiet =>
    rw [Host.step] at hstep
    split at hstep
    next hidle =>
      obtain rfl := Option.some.inj hstep
      exact .capture (Option.isNone_iff_eq_none.mp hidle)
    next => nomatch hstep
  | list =>
    rw [Host.step] at hstep
    split at hstep
    next hpass =>
      obtain rfl := Option.some.inj hstep
      exact .list hpass
    next => nomatch hstep
  | openFile =>
    rw [Host.step] at hstep
    split at hstep
    next hpass =>
      split at hstep
      next =>
        obtain ⟨f, -, rfl⟩ := Option.map_eq_some_iff.mp hstep
        exact .openFile hpass
      next => nomatch hstep
    next => nomatch hstep
  | inspect elapsed =>
    rw [Host.step] at hstep
    split at hstep
    next hpass =>
      obtain rfl := Option.some.inj hstep
      split
      next => exact .unchanged hpass
      next => exact .inspect hpass
    next => nomatch hstep
  | read now =>
    rw [Host.step] at hstep
    split at hstep
    next hpass =>
      obtain rfl := Option.some.inj hstep
      exact .read hpass
    next => nomatch hstep
  | batch =>
    rw [Host.step] at hstep
    split at hstep
    next hpass =>
      split at hstep
      next hchecked =>
        obtain rfl := Option.some.inj hstep
        exact .batch hpass hchecked
      next => nomatch hstep
    next => nomatch hstep
  | publish =>
    rw [Host.step] at hstep
    split at hstep
    next hpass =>
      split at hstep
      next hchecked =>
        obtain rfl := Option.some.inj hstep
        exact .publish hpass hchecked
      next => nomatch hstep
    next => nomatch hstep
  | abort =>
    rw [Host.step] at hstep
    split at hstep
    next hpass =>
      obtain rfl := Option.some.inj hstep
      obtain ⟨p, hp⟩ := Option.isSome_iff_exists.mp hpass
      exact .abort hp
    next => nomatch hstep
  | logs ch =>
    obtain rfl := Option.some.inj hstep
    exact .logs

theorem generation_performed (ino modified : Nat) (w : Write) :
    (h.performed ino modified w).generation = h.generation := by
  cases w <;> rfl

theorem pass_performed (ino modified : Nat) (w : Write) :
    (h.performed ino modified w).pass = h.pass := by
  cases w <;> rfl

theorem dirty_performed (ino modified : Nat) (w : Write) :
    (h.performed ino modified w).sync.dirty = h.sync.dirty := by
  cases w <;> rfl

theorem Moves.generation (hm : Moves c h e t) :
    h.generation + (if e.ends then 1 else 0) ≤ t.generation := by
  cases hm with
  | write held => exact (generation_performed _ _ _).ge
  | begin free => exact Nat.le_succ _
  | finish held => exact le_rfl
  | fail held => exact le_rfl
  | capture | list | openFile | inspect | unchanged | read | batch | publish | abort | logs =>
    exact le_rfl

theorem Moves.pass (hm : Moves c h e t) {p' : Pass} (hp : t.pass = some p') :
    (e.captures = true ∧ p'.generation = t.generation) ∨
      ∃ p, h.pass = some p ∧ p.generation = p'.generation := by
  cases hm with
  | begin free => exact .inr ⟨p', hp, rfl⟩
  | write held => exact .inr ⟨p', (pass_performed _ _ _).symm.trans hp, rfl⟩
  | finish held => exact .inr ⟨p', hp, rfl⟩
  | fail held => exact .inr ⟨p', hp, rfl⟩
  | capture idle =>
    obtain rfl := Option.some.inj hp
    exact .inl ⟨rfl, rfl⟩
  | list pass | openFile pass | inspect pass | read pass | batch pass =>
    obtain rfl := Option.some.inj hp
    exact .inr ⟨_, pass, rfl⟩
  | unchanged pass => nomatch hp
  | publish pass => nomatch hp
  | abort pass => nomatch hp
  | logs => exact .inr ⟨p', hp, rfl⟩

end Step

/-! ### Fenced commits -/

section Trace

variable {c : LogFormat} {h t : Host} {es : List HostEvent}

theorem generation_exec (hexec : exec (Host.step c) es h = some t) :
    h.generation ≤ t.generation := by
  refine exec_invariant (P := fun u => h.generation ≤ u.generation) ?_ hexec le_rfl
  intro u e v _ hu hstep
  have := (moves_of_step hstep).generation
  omega

variable {e : HostEvent}

theorem generation_exec_of_ends (hexec : exec (Host.step c) es h = some t)
    (he : e ∈ es) (hends : e.ends = true) : h.generation < t.generation := by
  obtain ⟨before, after, rfl⟩ := append_of_mem he
  obtain ⟨u, hu, hrest⟩ := exec_append.mp hexec
  obtain ⟨v, hv, ht⟩ := exec_cons.mp hrest
  have h1 := generation_exec hu
  have h2 := (moves_of_step hv).generation
  have h3 := generation_exec ht
  rw [hends, if_pos rfl] at h2
  omega

theorem pass_exec (hexec : exec (Host.step c) es h = some t)
    (hsame : ∀ e ∈ es, e.captures = false) {g : Nat}
    (hg : ∀ p, h.pass = some p → p.generation = g) : ∀ p, t.pass = some p → p.generation = g := by
  refine exec_invariant (P := fun u => ∀ p, u.pass = some p → p.generation = g) ?_ hexec hg
  intro u e v he hu hstep p hp
  rcases (moves_of_step hstep).pass hp with ⟨hcap, -⟩ | ⟨p', hp', hgen⟩
  · rw [hsame e he] at hcap
    cases hcap
  · rw [← hgen]
    exact hu p' hp'

def HostEvent.commits : HostEvent → Bool
  | batch | publish => true
  | _ => false

theorem Moves.commits (hm : Moves c h e t) (he : e.commits = true) :
    h.holder = none ∧ ∃ p, h.pass = some p ∧ p.generation = h.generation := by
  cases hm with
  | batch pass checked => exact ⟨Option.isNone_iff_eq_none.mp checked.1, _, pass, checked.2⟩
  | publish pass checked => exact ⟨Option.isNone_iff_eq_none.mp checked.1, _, pass, checked.2⟩
  | begin | write | finish | fail | capture | list | openFile | inspect | unchanged | read | abort
    | logs => nomatch he

/-- **Since a pass that commits has begun, no operation has ended.** -/
theorem commit_fenced {quiet : Bool} (he : e.commits = true)
    (hsame : ∀ x ∈ es, x.captures = false)
    (hexec : exec (Host.step c) (.capture quiet :: es ++ [e]) h = some t) :
    ∀ x ∈ es, x.ends = false := by
  obtain ⟨v, hv, ht⟩ := exec_concat.mp hexec
  obtain ⟨u, hu, hrest⟩ := exec_cons.mp hv
  have hcaptured : ∀ p, u.pass = some p → p.generation = u.generation := by
    intro p hp
    cases moves_of_step hu with
    | capture idle =>
      obtain rfl := Option.some.inj hp
      rfl
  obtain ⟨-, p, hp, hgen⟩ := (moves_of_step ht).commits he
  have hsameGen := pass_exec hrest hsame hcaptured p hp
  intro x hx
  by_contra hends
  have hlt := generation_exec_of_ends hrest hx (by simpa using hends)
  omega

/-! ### A pass as a whole -/

theorem foldl_tombstones_eq (db : Index) (ks : List Key) :
    ks.foldl Index.replayTombstone db = { db with
      tombstones := db.tombstones ∪ ks.toFinset
      rows := db.rows.filter fun r => r.key ∈ db.tombstones ∨ r.key ∉ ks } := by
  induction ks generalizing db with
  | nil => simp
  | cons k ks ih =>
    rw [foldl_cons, ih, Index.replayTombstone]
    split
    next hk =>
      have hrows : db.rows.filter (fun r => r.key ∈ db.tombstones ∨ r.key ∉ ks) =
          db.rows.filter fun r => r.key ∈ db.tombstones ∨ r.key ∉ k :: ks := by
        refine filter_congr fun r _ => ?_
        by_cases hr : r.key = k
        · simp [hr, hk]
        · simp [hr]
      rw [hrows, toFinset_cons, Finset.union_insert,
        Finset.insert_eq_self.mpr (Finset.mem_union_left _ hk)]
    next hk =>
      simp only [filter_filter, toFinset_cons, Finset.union_insert, Finset.insert_union]
      congr 1
      refine filter_congr fun r _ => ?_
      by_cases hr : r.key = k
      · simp [hr, hk]
      · simp [hr]

theorem foldl_map_tombstones (kss : List (List Key)) (db : Index) :
    (kss.map Batch.tombstones).foldl Batch.apply db =
      kss.flatten.foldl Index.replayTombstone db := by
  rw [foldl_map, foldl_flatten]
  rfl

theorem foldl_map_entries (ess : List (List HistoryEntry)) (db : Index) :
    (ess.map Batch.entries).foldl Batch.apply db = ess.flatten.foldl Index.replayEntry db := by
  rw [foldl_map, foldl_flatten]
  rfl

theorem foldl_passBatches (s : HistorySync) (full : Bool) (floor : Int)
    (files : List (Text × LogFile)) :
    (passBatches c s full floor files).foldl Batch.apply s.db =
      (reconcile c.toLogCodec s full files floor).db := by
  have hdedup : (passTombstones c s full floor files).dedup.foldl Index.replayTombstone s.db =
      (passTombstones c s full floor files).foldl Index.replayTombstone s.db := by
    have hset : (passTombstones c s full floor files).dedup.toFinset =
        (passTombstones c s full floor files).toFinset := by
      ext k
      simp
    rw [foldl_tombstones_eq, foldl_tombstones_eq, hset]
    simp only [mem_dedup]
  rw [passBatches, foldl_append, foldl_map_tombstones, foldl_map_entries, flatten_cut,
    flatten_cut, nil_append, nil_append, hdedup]
  rfl

/-- What a pass has done so far. -/
def Progress (c : LogFormat) (s0 s : HistorySync) : Phase → Prop
  | .captured | .opening _ _ | .inspected _ _ => s = s0
  | .committing full files floor todo => ∃ done,
      passBatches c s0 full floor files = done ++ todo ∧
        s = { s0 with db := done.foldl Batch.apply s0.db }

/-- The pass will commit nothing any more, or else it has done its work on `s0` so far. -/
def Tracks (c : LogFormat) (s0 : HistorySync) (h : Host) : Prop :=
  ∀ p, h.pass = some p → p.generation < h.generation ∨
    p.generation = h.generation ∧ (h.holder.isSome = true ∨
      h.holder = none ∧ Progress c s0 h.sync p.phase)

theorem Tracks.commits {s0 : HistorySync} (htracks : Tracks c s0 h) {p : Pass}
    (hp : h.pass = some p) (hchecked : h.Checked p.generation) :
    Progress c s0 h.sync p.phase := by
  rcases htracks p hp with hlt | ⟨-, hheld | ⟨-, hprogress⟩⟩
  · exact absurd hchecked.2 hlt.ne
  · exact absurd (Option.isNone_iff_eq_none.mp hchecked.1) (Option.isSome_iff_ne_none.mp hheld)
  · exact hprogress

theorem Tracks.goTo {s0 : HistorySync} {p : Pass} (htracks : Tracks c s0 h) (hp : h.pass = some p)
    {phase : Phase} (hnext : Progress c s0 h.sync p.phase → Progress c s0 h.sync phase) :
    Tracks c s0 (h.goTo p.generation p.quiet phase) := by
  rintro p' hp'
  obtain rfl := Option.some.inj hp'
  refine (htracks p hp).imp_right (And.imp_right (Or.imp_right (And.imp_right hnext)))

/-- **The step lemma of a pass.** -/
theorem Tracks.step {s0 : HistorySync} (htracks : Tracks c s0 h)
    (hm : Moves c h e t) (hsame : e.captures = false) : Tracks c s0 t := by
  have hstale : ∀ {t : Host}, t.pass = h.pass → h.generation < t.generation → Tracks c s0 t := by
    intro t hpass hlt p hp
    refine .inl ?_
    rcases htracks p (hpass ▸ hp) with hp | ⟨hp, -⟩ <;> omega
  cases hm with
  | begin free => exact hstale rfl (Nat.lt_succ_self _)
  | write held =>
    intro p hp
    have hp : h.pass = some p := (pass_performed _ _ _).symm.trans hp
    dsimp only
    rw [generation_performed]
    exact (htracks p hp).imp_right fun hgen => ⟨hgen.1, .inl rfl⟩
  | finish held => exact hstale rfl (Nat.lt_succ_self _)
  | fail held => exact hstale rfl (Nat.lt_succ_self _)
  | capture idle => nomatch hsame
  | list pass => exact htracks.goTo pass id
  | openFile pass => exact htracks.goTo pass id
  | inspect pass => exact htracks.goTo pass id
  | unchanged pass => exact fun p hp => nomatch hp
  | read pass =>
    refine htracks.goTo pass fun hprogress => ⟨[], ?_, ?_⟩
    · rw [show h.sync = s0 from hprogress]
      rfl
    · exact hprogress
  | @batch g q full files floor b bs pass checked =>
    obtain ⟨done, hall, hsync⟩ := htracks.commits pass checked
    intro p hp
    obtain rfl := Option.some.inj hp
    refine .inr ⟨checked.2, .inr ⟨Option.isNone_iff_eq_none.mp checked.1, done ++ [b], ?_, ?_⟩⟩
    · rw [hall, append_assoc]
      rfl
    · rw [foldl_append]
      dsimp only
      rw [hsync]
      rfl
  | publish pass checked => exact fun p hp => nomatch hp
  | abort pass => exact fun p hp => nomatch hp
  | logs => exact htracks

/-- **A pass that publishes is `reconcile`, done at once** where the pass began. -/
theorem publish_eq_reconcile {quiet : Bool} (hsame : ∀ x ∈ es, x.captures = false)
    (hexec : exec (Host.step c) (.capture quiet :: es ++ [.publish]) h = some t) :
    ∃ full files floor, t.sync = reconcile c.toLogCodec h.sync full files floor := by
  obtain ⟨v, hv, ht⟩ := exec_concat.mp hexec
  obtain ⟨u, hu, hrest⟩ := exec_cons.mp hv
  have hbegin : Tracks c h.sync u := by
    cases moves_of_step hu with
    | capture idle =>
      intro p hp
      obtain rfl := Option.some.inj hp
      refine .inr ⟨rfl, ?_⟩
      cases hholder : h.holder with
      | none => exact .inr ⟨hholder, rfl⟩
      | some o => exact .inl (by rw [Host.goTo, hholder]; rfl)
  have htracks : Tracks c h.sync v :=
    exec_invariant (fun a e b he ha hstep => ha.step (moves_of_step hstep) (hsame e he)) hrest hbegin
  cases moves_of_step ht with
  | @publish g q full files floor pass checked =>
    obtain ⟨done, hall, hsync⟩ := htracks.commits pass checked
    rw [append_nil] at hall
    refine ⟨full, files, floor, ?_⟩
    have hdb : v.sync.db = (reconcile c.toLogCodec h.sync full files floor).db := by
      rw [hsync, ← foldl_passBatches, hall]
    change { reconcile c.toLogCodec v.sync full files floor with db := v.sync.db } = _
    rw [hdb, hsync]
    rfl

theorem Moves.unpublished (hm : Moves c h e t) (he : e ≠ .publish) :
    t.sync.files = h.sync.files ∧ t.sync.fingerprints = h.sync.fingerprints ∧
      t.sync.initialized = h.sync.initialized := by
  cases hm with
  | @write ino modified saved w ws held => cases w <;> exact ⟨rfl, rfl, rfl⟩
  | publish pass checked => exact absurd rfl he
  | begin | finish | fail | capture | list | openFile | inspect | unchanged | read | batch | abort
    | logs => exact ⟨rfl, rfl, rfl⟩

/-! ### The repair flag -/

/-- A guarded operation that holds the lock has raised the flag. -/
def Raised (h : Host) : Prop :=
  ∀ o, h.holder = some o → o.saved.isSome = true → h.sync.dirty = true

theorem Raised.step (hr : Raised h) (hm : Moves c h e t) : Raised t := by
  intro o ho hsaved
  cases hm with
  | @begin op free =>
    obtain rfl := Option.some.inj ho
    dsimp only at hsaved ⊢
    split at hsaved
    next hop => rw [hop, Bool.true_or]
    next => nomatch hsaved
  | @write ino modified saved w ws held =>
    obtain rfl := Option.some.inj ho
    exact (dirty_performed ino modified w).trans (hr _ held hsaved)
  | finish held => nomatch ho
  | fail held => nomatch ho
  | publish pass checked =>
    have hfree := Option.isNone_iff_eq_none.mp checked.1
    rw [hfree] at ho
    nomatch ho
  | capture | list | openFile | inspect | unchanged | read | batch | abort | logs =>
    exact hr o ho hsaved

/-- A pass has begun in the trace, and has published. -/
def RepairedIn (es : List HostEvent) : Prop :=
  ∃ before quiet between after, es = before ++ .capture quiet :: between ++ .publish :: after ∧
    ∀ x ∈ between, x.captures = false

theorem RepairedIn.concat (hr : RepairedIn es) (e : HostEvent) : RepairedIn (es ++ [e]) := by
  obtain ⟨before, quiet, between, after, rfl, hbetween⟩ := hr
  exact ⟨before, quiet, between, after ++ [e], by simp, hbetween⟩

/-- The pass that is on its way has begun in the trace. -/
def BegunIn (es : List HostEvent) : Prop :=
  ∃ before quiet between, es = before ++ .capture quiet :: between ∧
    ∀ x ∈ between, x.captures = false

theorem BegunIn.concat (hb : BegunIn es) (he : e.captures = false) :
    BegunIn (es ++ [e]) := by
  obtain ⟨before, quiet, between, rfl, hbetween⟩ := hb
  refine ⟨before, quiet, between ++ [e], by simp, fun x hx => ?_⟩
  rcases mem_append.mp hx with hx | hx
  · exact hbetween x hx
  · exact mem_singleton.mp hx ▸ he

/-- The flag is up and will not be taken down by the operation that holds the lock, and
a pass that could take it down has begun in the trace. -/
structure Marked (es : List HostEvent) (h : Host) : Prop where
  dirty : h.sync.dirty = true
  held : ∀ o, h.holder = some o → o.saved ≠ some false
  pass : ∀ p, h.pass = some p → p.generation < h.generation ∨ BegunIn es

/-- **The step lemma of the flag.** -/
theorem Marked.step (hmark : Marked es h) (hm : Moves c h e t) :
    Marked (es ++ [e]) t ∨ RepairedIn (es ++ [e]) := by
  obtain ⟨hdirty, hheld, hpass⟩ := hmark
  have hpass' : ∀ p, t.pass = some p → p.generation < t.generation ∨ BegunIn (es ++ [e]) := by
    intro p' hp'
    have hgen := hm.generation
    rcases hm.pass hp' with ⟨hcap, -⟩ | ⟨p, hp, hsame⟩
    · cases e with
      | capture quiet => exact .inr ⟨es, quiet, [], rfl, fun x hx => absurd hx not_mem_nil⟩
      | _ => nomatch hcap
    · by_cases hcap : e.captures = true
      · cases e with
        | capture quiet => exact .inr ⟨es, quiet, [], rfl, fun x hx => absurd hx not_mem_nil⟩
        | _ => nomatch hcap
      · refine (hpass p hp).imp (fun hlt => ?_) fun hb => hb.concat (by simpa using hcap)
        omega
  cases hm with
  | @begin op free =>
    refine .inl ⟨?_, fun o ho => ?_, hpass'⟩
    · dsimp only
      rw [hdirty, Bool.or_true]
    · obtain rfl := Option.some.inj ho
      dsimp only
      rw [hdirty]
      split <;> simp
  | @write ino modified saved w ws held =>
    refine .inl ⟨(dirty_performed ino modified w).trans hdirty, fun o ho => ?_, hpass'⟩
    obtain rfl := Option.some.inj ho
    exact hheld ⟨saved, w :: ws⟩ held
  | @finish saved held =>
    refine .inl ⟨?_, fun o ho => (nomatch ho : False).elim, hpass'⟩
    have hsaved := hheld _ held
    dsimp only at hsaved ⊢
    rcases saved with _ | _ | _
    · exact hdirty
    · exact absurd rfl hsaved
    · rfl
  | fail held => exact .inl ⟨hdirty, fun o ho => (nomatch ho : False).elim, hpass'⟩
  | publish pass checked =>
    rcases hpass _ pass with hlt | hbegun
    · exact absurd checked.2 hlt.ne
    · obtain ⟨before, quiet, between, rfl, hbetween⟩ := hbegun
      exact .inr ⟨before, quiet, between, [], rfl, hbetween⟩
  | capture | list | openFile | inspect | unchanged | read | batch | abort | logs =>
    exact .inl ⟨hdirty, hheld, hpass'⟩

/-- **After an operation that failed, the flag is cleared only by a pass that has begun
later.** -/
theorem repaired_of_clean {o : Held} (hr : Raised h) (ho : h.holder = some o)
    (hsaved : o.saved.isSome = true) (hold : ∀ p, h.pass = some p → p.generation ≤ h.generation)
    (hexec : exec (Host.step c) (.fail :: es) h = some t) (hclean : t.sync.dirty = false) :
    RepairedIn es := by
  obtain ⟨u, hu, hrest⟩ := exec_cons.mp hexec
  have hmark : Marked [] u := by
    cases moves_of_step hu with
    | fail held =>
      refine ⟨hr o ho hsaved, fun o ho => (nomatch ho : False).elim, fun p hp => .inl ?_⟩
      exact Nat.lt_succ_of_le (hold p hp)
  suffices hall : Marked es t ∨ RepairedIn es by
    refine hall.resolve_left fun hm => ?_
    rw [hm.1] at hclean
    nomatch hclean
  clear hclean
  induction es using reverseRecOn generalizing t with
  | nil =>
    obtain rfl := Option.some.inj hrest
    exact .inl hmark
  | append_singleton es e ih =>
    obtain ⟨v, hv, ht⟩ := exec_concat.mp hrest
    have hcons : exec (Host.step c) (.fail :: es) h = some v := exec_cons.mpr ⟨u, hu, hv⟩
    rcases ih hcons hv with hm | hrep
    · exact hm.step (moves_of_step ht)
    · exact .inr (hrep.concat e)

/-- What holds of every state that is reached. -/
def Ordered (h : Host) : Prop := Raised h ∧ ∀ p, h.pass = some p → p.generation ≤ h.generation

theorem Ordered.step (ho : Ordered h) (hm : Moves c h e t) : Ordered t := by
  refine ⟨ho.1.step hm, fun p' hp' => ?_⟩
  have hgen := hm.generation
  rcases hm.pass hp' with ⟨-, hsame⟩ | ⟨p, hp, hsame⟩
  · omega
  · have := ho.2 p hp
    omega

theorem Ordered.exec (ho : Ordered h) (hexec : exec (Host.step c) es h = some t) : Ordered t :=
  exec_invariant (fun _ _ _ _ hu hstep => hu.step (moves_of_step hstep)) hexec ho

end Trace

/-- **Replay never overwrites a newer local change.**  In every state that is reached:
no operation has ended between the beginning of a pass and what it commits; a pass that
publishes has done all of its work, and nobody else publishes; and once a guarded
operation has failed the flag is cleared only by a pass that begins later. -/
theorem replay_fenced (c : LogFormat) {h0 h : Host} (hidle : h0.Idle) {before : List HostEvent}
    (hreached : exec (Host.step c) before h0 = some h) :
    (∀ quiet es e t, e.commits = true → (∀ x ∈ es, x.captures = false) →
      exec (Host.step c) (.capture quiet :: es ++ [e]) h = some t → ∀ x ∈ es, x.ends = false) ∧
    (∀ quiet es t, (∀ x ∈ es, x.captures = false) →
      exec (Host.step c) (.capture quiet :: es ++ [.publish]) h = some t →
        ∃ full files floor, t.sync = reconcile c.toLogCodec h.sync full files floor) ∧
    (∀ e t, e ≠ .publish → h.step c e = some t → t.sync.files = h.sync.files ∧
      t.sync.fingerprints = h.sync.fingerprints ∧ t.sync.initialized = h.sync.initialized) ∧
    ∀ o es t, h.holder = some o → o.saved.isSome = true →
      exec (Host.step c) (.fail :: es) h = some t → t.sync.dirty = false → RepairedIn es := by
  have hordered : Ordered h := by
    refine Ordered.exec ⟨fun o ho => ?_, fun p hp => ?_⟩ hreached
    · rw [hidle.1] at ho
      nomatch ho
    · rw [hidle.2] at hp
      nomatch hp
  refine ⟨fun quiet es e t he hsame hexec => commit_fenced he hsame hexec,
    fun quiet es t hsame hexec => publish_eq_reconcile hsame hexec,
    fun e t he hstep => (moves_of_step hstep).unpublished he,
    fun o es t ho hsaved hexec hclean => ?_⟩
  exact repaired_of_clean hordered.1 ho hsaved hordered.2 hexec hclean

/-- A node that has just started, with a flag that is down and no logs. -/
def idleHost : Host where
  own := "history.jsonl".toList
  dir := []
  retention := .unlimited
  sync := .opened .empty
  generation := 0
  holder := none
  pass := none

/-- The record of an entry fails behind the tables, and a pass repairs the flag. -/
def repairEvents : List HostEvent := [.capture true, .list, .inspect false, .read 100, .publish]

theorem replay_fenced_repair : ∃ h t,
    exec (Host.step episodeTable.format) [.begin (.record finishedEntry), .write 1 0] idleHost = some h ∧
      h.sync.dirty = true ∧
      exec (Host.step episodeTable.format) (.fail :: repairEvents) h = some t ∧
        t.sync.dirty = false ∧ RepairedIn repairEvents := by
  have hreached : exec (Host.step episodeTable.format)
      [.begin (.record finishedEntry), .write 1 0] idleHost = some _ := rfl
  have hfenced := replay_fenced episodeTable.format ⟨rfl, rfl⟩ hreached
  exact ⟨_, _, rfl, rfl, rfl, rfl, hfenced.2.2.2 _ repairEvents _ rfl rfl rfl rfl⟩

end Nzbd.History
