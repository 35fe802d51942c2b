import Mathlib.Data.List.Rotate
import Nzbd.Torrent.Restore

/-!
# The identities of a torrent

A torrent is known by its job, by its info hash and by the id the engine has given
it.  The plan of a restore asks for each of them at most once
(`planRestore_distinct`).  `RuntimeAssociations` keeps three maps between them, and
`associate` only adds a triple none of whose members is known (`Inverse`).  The
registry of the adapter keeps the handles of the engine under hash and id.

The engine answers an add whose hash or id it has already with the torrent it
has.  The registry takes the answer for a new torrent that has to go again and
deletes it: the handle that is deleted is the live one, and the registry goes on
naming it.  The same happens to a restore whose metainfo is another live torrent.
Deleting the data of a torrent is taken for not done when only the data could not
be deleted.  `Clean` says that a call does none of this, and
`agrees_iff_clean` that these calls, and no others, part the registry from the
engine.
-/

namespace Nzbd.Torrent

open Option List

variable (w : World) (observed : Text → Option ObservedResumeState) (allowed : List JobId)
  (roots : List PathBuf)

/-! ### The plan -/

/-- What the requests have in common with what the plan remembers. -/
structure RestorePlan.Distinct (p : RestorePlan) : Prop where
  hashes : (p.requests.map (·.infoHashV1)).Nodup
  known : ∀ r ∈ p.requests, r.infoHashV1 ∈ p.hashes
  ids : p.preferredIds.Nodup
  preferred : p.requests.filterMap (·.preferredEngineId) = p.preferredIds.reverse

theorem distinct_planJob {p : RestorePlan} (h : p.Distinct) (job : Job) :
    (planJob w observed allowed roots p job).Distinct := by
  rcases planJob_cases w observed allowed roots p job with
    ⟨hr, hh, hp⟩ | ⟨t, -, -, -, hhash, hid, heq⟩
  · exact ⟨hr ▸ h.hashes, fun r hmem => hh (h.known r (hr ▸ hmem)), hp ▸ h.ids,
      by rw [hr, hp]; exact h.preferred⟩
  · rw [heq]
    refine ⟨?_, ?_, ?_, ?_⟩
    · rw [map_append, nodup_append]
      refine ⟨h.hashes, by simp, ?_⟩
      intro hash hold hash' hnew heq
      obtain ⟨r, hmem, rfl⟩ := mem_map.mp hold
      obtain rfl : hash' = t.infoHashV1 := by simpa [restoreRequest] using hnew
      exact hhash (heq ▸ h.known r hmem)
    · intro r hmem
      rcases mem_append.mp hmem with hmem | hmem
      · exact mem_cons_of_mem _ (h.known r hmem)
      · rw [mem_singleton.mp hmem]
        exact mem_cons_self
    · cases hpref : (restoreRequest observed allowed job.id t).preferredEngineId with
      | none => exact h.ids
      | some id => exact nodup_cons.mpr ⟨hid id hpref, h.ids⟩
    · cases hpref : (restoreRequest observed allowed job.id t).preferredEngineId with
      | none => simp [hpref, h.preferred]
      | some id => simp [hpref, h.preferred]

theorem jobs_planJob (p : RestorePlan) (job : Job) :
    ∃ l, ((planJob w observed allowed roots p job).requests.map (·.job)) =
      p.requests.map (·.job) ++ l ∧ l.Sublist [job.id] := by
  rcases planJob_cases w observed allowed roots p job with
    ⟨hr, -, -⟩ | ⟨t, -, -, -, -, -, heq⟩
  · exact ⟨[], by simp [hr], nil_sublist _⟩
  · exact ⟨[job.id], by simp [heq, restoreRequest], List.Sublist.refl _⟩

/-- **The plan asks for every identity once.** -/
theorem planRestore_distinct (jobs : List Job) (hjobs : (jobs.map (·.id)).Nodup) :
    ((planRestore w observed allowed roots jobs).requests.map (·.job)).Nodup ∧
      ((planRestore w observed allowed roots jobs).requests.map (·.infoHashV1)).Nodup ∧
      ((planRestore w observed allowed roots jobs).requests.filterMap
        (·.preferredEngineId)).Nodup := by
  have hdistinct : ∀ (l : List Job) (p : RestorePlan), p.Distinct →
      (l.foldl (planJob w observed allowed roots) p).Distinct := by
    intro l
    induction l with
    | nil => exact fun p h => h
    | cons j l ih => exact fun p h => ih _ (distinct_planJob w observed allowed roots h j)
  have hsublist : ∀ (l : List Job) (p : RestorePlan), ∃ m,
      (l.foldl (planJob w observed allowed roots) p).requests.map (·.job) =
        p.requests.map (·.job) ++ m ∧ m.Sublist (l.map (·.id)) := by
    intro l
    induction l with
    | nil => exact fun p => ⟨[], by simp, nil_sublist _⟩
    | cons j l ih =>
      intro p
      obtain ⟨m, hm, hms⟩ := jobs_planJob w observed allowed roots p j
      obtain ⟨n, hn, hns⟩ := ih (planJob w observed allowed roots p j)
      exact ⟨m ++ n, by rw [foldl_cons, hn, hm, append_assoc], hms.append hns⟩
  have hplan := hdistinct jobs .empty ⟨by simp [RestorePlan.empty], by simp [RestorePlan.empty],
    by simp [RestorePlan.empty], rfl⟩
  obtain ⟨m, hm, hms⟩ := hsublist jobs .empty
  refine ⟨?_, hplan.hashes, ?_⟩
  · rw [planRestore, hm]
    simpa [RestorePlan.empty] using hjobs.sublist hms
  · rw [planRestore, hplan.preferred]
    exact (reverse_perm _).nodup_iff.mpr hplan.ids

/-! ### Associations -/

structure EngineIdentity where
  id : Nat
  infoHashV1 : Text
  deriving DecidableEq

inductive EngineStructuralFact
  | ready (contentPath : PathBuf)
  | stopped (reason : StopReason)
  | storageFull
  | missingContent
  | transient
  | unrecoverable (error : Text)

structure RuntimeAssociations where
  jobs : JobId → Option EngineIdentity
  hashes : Text → Option JobId
  ids : Nat → Option JobId

namespace RuntimeAssociations

def empty : RuntimeAssociations := ⟨fun _ => none, fun _ => none, fun _ => none⟩

/-- Refused if one of the three is known. -/
def associate (a : RuntimeAssociations) (job : JobId) (e : EngineIdentity) :
    Option RuntimeAssociations :=
  if (a.jobs job).isSome ∨ (a.hashes e.infoHashV1).isSome ∨ (a.ids e.id).isSome then none
  else some
    { jobs := Function.update a.jobs job (some e)
      hashes := Function.update a.hashes e.infoHashV1 (some job)
      ids := Function.update a.ids e.id (some job) }

/-- One call after the other; a refused one changes nothing. -/
def associateAll (calls : List (JobId × EngineIdentity)) (a : RuntimeAssociations) :
    RuntimeAssociations :=
  calls.foldl (fun a c => (a.associate c.1 c.2).getD a) a

/-- The job that is behind both the id and the hash. -/
def owner (a : RuntimeAssociations) (e : EngineIdentity) : Option JobId :=
  match a.ids e.id with
  | none => none
  | some job => if a.hashes e.infoHashV1 = some job then some job else none

def translateFact (a : RuntimeAssociations) (e : EngineIdentity) (fact : EngineStructuralFact) :
    Option BackendFact :=
  (a.owner e).map fun job =>
    match fact with
    | .ready path => .ready job path
    | .stopped reason => .stopped job reason
    | .storageFull => .stopped job .storageFull
    | .missingContent => .stopped job .missingContent
    | .transient => .stopped job .transient
    | .unrecoverable error => .failed job error

/-- The three maps are inverse to one another. -/
structure Inverse (a : RuntimeAssociations) : Prop where
  hash : ∀ k job, a.hashes k = some job ↔ ∃ e, a.jobs job = some e ∧ e.infoHashV1 = k
  id : ∀ i job, a.ids i = some job ↔ ∃ e, a.jobs job = some e ∧ e.id = i

theorem inverse_empty : empty.Inverse := ⟨by simp [empty], by simp [empty]⟩

variable {e : EngineIdentity}

theorem inverse_update {κ : Type*} [DecidableEq κ] {key : EngineIdentity → κ}
    {jobs : JobId → Option EngineIdentity} {m : κ → Option JobId} {job : JobId}
    (h : ∀ k j, m k = some j ↔ ∃ e, jobs j = some e ∧ key e = k)
    (hjob : jobs job = none) (hkey : m (key e) = none) (k : κ) (j : JobId) :
    Function.update m (key e) (some job) k = some j ↔
      ∃ e', Function.update jobs job (some e) j = some e' ∧ key e' = k := by
  by_cases hk : k = key e
  · subst hk
    rw [Function.update_self]
    constructor
    · rintro ⟨⟩
      exact ⟨e, Function.update_self .., rfl⟩
    · rintro ⟨e', he', hkey'⟩
      by_cases hj : j = job
      · rw [hj]
      · rw [Function.update_of_ne hj] at he'
        have := (h (key e) j).mpr ⟨e', he', hkey'⟩
        rw [hkey] at this
        cases this
  · rw [Function.update_of_ne hk, h]
    by_cases hj : j = job
    · subst hj
      rw [Function.update_self]
      constructor
      · rintro ⟨e', he', -⟩
        rw [hjob] at he'
        cases he'
      · rintro ⟨e', he', hkey'⟩
        obtain rfl := some.inj he'
        exact absurd hkey'.symm hk
    · rw [Function.update_of_ne hj]

theorem Inverse.associate {a b : RuntimeAssociations} {job : JobId}
    (h : a.Inverse) (hb : a.associate job e = some b) : b.Inverse := by
  simp only [RuntimeAssociations.associate] at hb
  split at hb
  · cases hb
  · next hnew =>
    obtain rfl := some.inj hb
    simp only [not_or, Bool.not_eq_true, isSome_eq_false_iff, isNone_iff_eq_none]
      at hnew
    obtain ⟨hjob, hhash, hid⟩ := hnew
    exact ⟨inverse_update h.hash hjob hhash, inverse_update h.id hjob hid⟩

theorem mem_of_associate {a b : RuntimeAssociations} {job : JobId}
    (hb : a.associate job e = some b) {j : JobId} {d : EngineIdentity} (hj : b.jobs j = some d) :
    (j, d) = (job, e) ∨ a.jobs j = some d := by
  simp only [RuntimeAssociations.associate] at hb
  split at hb
  · cases hb
  · obtain rfl := some.inj hb
    change Function.update a.jobs job (some e) j = some d at hj
    by_cases hjob : j = job
    · subst hjob
      rw [Function.update_self] at hj
      exact .inl (by rw [some.inj hj])
    · exact .inr (by rwa [Function.update_of_ne hjob] at hj)

theorem associateAll_spec (calls : List (JobId × EngineIdentity)) {a : RuntimeAssociations}
    (h : a.Inverse) : (associateAll calls a).Inverse ∧
      ∀ j d, (associateAll calls a).jobs j = some d → (j, d) ∈ calls ∨ a.jobs j = some d := by
  induction calls generalizing a with
  | nil => exact ⟨h, fun _ _ => .inr⟩
  | cons c calls ih =>
    rw [associateAll, foldl_cons]
    cases hc : a.associate c.1 c.2 with
    | none =>
      obtain ⟨hi, hm⟩ := ih h
      exact ⟨hi, fun j d hj => (hm j d hj).imp_left (mem_cons_of_mem _)⟩
    | some b =>
      obtain ⟨hi, hm⟩ := ih (h.associate hc)
      refine ⟨hi, fun j d hj => ?_⟩
      rcases hm j d hj with hmem | hj
      · exact .inl (mem_cons_of_mem _ hmem)
      · exact (mem_of_associate hc hj).imp_left fun heq => by rw [heq]; exact mem_cons_self

/-- **A fact goes to the job that was associated with this very id and hash.** -/
theorem translateFact_sound {a : RuntimeAssociations} (h : a.Inverse)
    {fact : EngineStructuralFact} {f : BackendFact} (hf : a.translateFact e fact = some f) :
    a.jobs (factJob f) = some e := by
  obtain ⟨job, howner, rfl⟩ := map_eq_some_iff.mp hf
  have hjob : a.jobs job = some e := by
    simp only [owner] at howner
    split at howner
    · cases howner
    · next job' hid =>
      split at howner
      · next hhash =>
        obtain rfl := some.inj howner
        obtain ⟨d, hd, hdid⟩ := (h.id _ _).mp hid
        obtain ⟨d', hd', hdhash⟩ := (h.hash _ _).mp hhash
        obtain rfl := some.inj (hd.symm.trans hd')
        rw [hd, show d = e from by cases d; cases e; simp_all]
      · cases howner
  cases fact <;> exact hjob

end RuntimeAssociations

/-! ### The registry -/

/-- The handles of one session.  `live` are the torrents of the engine, under whose
identity alone a handle is told from another. -/
structure TorrentRegistry where
  live : List EngineIdentity
  byHash : Text → Option EngineIdentity
  idToHash : Nat → Option Text

/-- What one add of metainfo meets. -/
structure Adding where
  /-- The hash of the metainfo. -/
  infoHashV1 : Text
  preferredId : Option Nat
  /-- The metainfo or its paths are refused. -/
  rejects : Bool
  /-- The id the engine draws if none is preferred. -/
  nextId : Nat
  /-- Which torrent the engine finds first. -/
  found : Nat
  /-- The storage of the torrent or the record of it fails. -/
  fails : Bool

/-- `restore_selected` of one descriptor. -/
structure RestoreDescriptor where
  expectedInfoHashV1 : Text
  metainfo : Adding

inductive RegistryCall
  | addCommitted (a : Adding)
  | restoreSelected (ds : List RestoreDescriptor)
  /-- `storageFails` : the storage of the torrent cannot be opened. -/
  | delete (e : EngineIdentity) (deleteFiles storageFails : Bool)

namespace Adding

def identity (a : Adding) : EngineIdentity := ⟨a.preferredId.getD a.nextId, a.infoHashV1⟩

/-- The torrents that the engine takes for this one. -/
def managed (a : Adding) (live : List EngineIdentity) : List EngineIdentity :=
  live.filter fun e => e.infoHashV1 = a.infoHashV1 ∨ e.id = a.identity.id

end Adding

namespace TorrentRegistry

def new : TorrentRegistry := ⟨[], fun _ => none, fun _ => none⟩

/-- The handle of `add_metainfo` and what is then live. -/
def addMetainfo (r : TorrentRegistry) (a : Adding) : Option (EngineIdentity × TorrentRegistry) :=
  if a.rejects then none
  else match ((a.managed r.live).rotate a.found).head? with
    | some e => some (e, r)
    | none =>
      if a.fails then none else some (a.identity, { r with live := a.identity :: r.live })

/-- `TorrentSession::delete`, with the torrent gone before its files. -/
def sessionDelete (r : TorrentRegistry) (e : EngineIdentity) : TorrentRegistry :=
  { r with live := r.live.filter (·.id ≠ e.id) }

def known (r : TorrentRegistry) (e : EngineIdentity) : Bool :=
  (r.byHash e.infoHashV1).isSome || (r.idToHash e.id).isSome

def insert (r : TorrentRegistry) (e : EngineIdentity) : TorrentRegistry :=
  { r with
    idToHash := Function.update r.idToHash e.id (some e.infoHashV1)
    byHash := Function.update r.byHash e.infoHashV1 (some e) }

/-- An identity that is known already goes from the engine again. -/
def addCommitted (r : TorrentRegistry) (a : Adding) : TorrentRegistry × Bool :=
  match r.addMetainfo a with
  | none => (r, false)
  | some (e, r) => if r.known e then (r.sessionDelete e, false) else (r.insert e, true)

def precheck (r : TorrentRegistry) (d : RestoreDescriptor) : Bool :=
  (r.byHash d.expectedInfoHashV1).isSome ||
    d.metainfo.preferredId.any fun id => (r.idToHash id).isSome

def restoreOne (r : TorrentRegistry) (d : RestoreDescriptor) : TorrentRegistry × Bool :=
  if r.precheck d then (r, false)
  else match r.addMetainfo d.metainfo with
    | none => (r, false)
    | some (e, r) =>
      if e.infoHashV1 ≠ d.expectedInfoHashV1 then (r.sessionDelete e, false)
      else if r.known e then (r.sessionDelete e, false)
      else (r.insert e, true)

/-- The first descriptor that fails ends the restore. -/
def restoreSelected (r : TorrentRegistry) : List RestoreDescriptor → TorrentRegistry
  | [] => r
  | d :: ds =>
    if (r.restoreOne d).2 then (r.restoreOne d).1.restoreSelected ds else (r.restoreOne d).1

def handle (r : TorrentRegistry) (e : EngineIdentity) : Option EngineIdentity :=
  (r.byHash e.infoHashV1).filter (·.id = e.id)

/-- The engine does not know a torrent that is gone, and does not fail then. -/
def delete (r : TorrentRegistry) (e : EngineIdentity) (deleteFiles storageFails : Bool) :
    TorrentRegistry :=
  match r.handle e with
  | none => r
  | some h =>
    if h.id ∈ r.live.map (·.id) ∧ deleteFiles ∧ storageFails then r.sessionDelete h
    else
      { r.sessionDelete h with
        byHash := Function.update r.byHash e.infoHashV1 none
        idToHash := Function.update r.idToHash e.id none }

def step (r : TorrentRegistry) : RegistryCall → TorrentRegistry
  | .addCommitted a => (r.addCommitted a).1
  | .restoreSelected ds => r.restoreSelected ds
  | .delete e deleteFiles storageFails => r.delete e deleteFiles storageFails

/-- The registry names the torrents that are live, and these alone. -/
structure Agrees (r : TorrentRegistry) : Prop where
  hash : ∀ k e, r.byHash k = some e ↔ e ∈ r.live ∧ e.infoHashV1 = k
  id : ∀ i k, r.idToHash i = some k ↔ ⟨i, k⟩ ∈ r.live

/-- No live torrent has the hash of the metainfo or the id. -/
def Free (r : TorrentRegistry) (a : Adding) : Prop := a.rejects ∨ a.managed r.live = []

def CleanRestore (r : TorrentRegistry) : List RestoreDescriptor → Prop
  | [] => True
  | d :: ds => (r.precheck d ∨ r.Free d.metainfo) ∧
      ((r.restoreOne d).2 → (r.restoreOne d).1.CleanRestore ds)

/-- The calls that keep the registry and the engine together. -/
def Clean (r : TorrentRegistry) : RegistryCall → Prop
  | .addCommitted a => r.Free a
  | .restoreSelected ds => r.CleanRestore ds
  | .delete e deleteFiles storageFails => ¬((r.handle e).isSome ∧ deleteFiles ∧ storageFails)

/-- The torrents that were there before are there after it. -/
def InPlace (r : TorrentRegistry) : RegistryCall → Prop
  | .delete .. => True
  | c => r.live ⊆ (r.step c).live

def AgreesThroughout (r : TorrentRegistry) : List RegistryCall → Prop
  | [] => True
  | c :: cs => ((r.step c).Agrees ∧ r.InPlace c) ∧ (r.step c).AgreesThroughout cs

def CleanThroughout (r : TorrentRegistry) : List RegistryCall → Prop
  | [] => True
  | c :: cs => r.Clean c ∧ (r.step c).CleanThroughout cs

variable {r : TorrentRegistry}

theorem Agrees.eq_of_hash (h : r.Agrees) {x y : EngineIdentity}
    (hx : x ∈ r.live) (hy : y ∈ r.live) (heq : x.infoHashV1 = y.infoHashV1) : x = y :=
  some.inj (((h.hash y.infoHashV1 x).mpr ⟨hx, heq⟩).symm.trans
    ((h.hash y.infoHashV1 y).mpr ⟨hy, rfl⟩))

theorem Agrees.hash_eq_of_id (h : r.Agrees) {x y : EngineIdentity}
    (hx : x ∈ r.live) (hy : y ∈ r.live) (heq : x.id = y.id) : x.infoHashV1 = y.infoHashV1 :=
  some.inj (((h.id x.id x.infoHashV1).mpr hx).symm.trans
    (heq ▸ (h.id y.id y.infoHashV1).mpr hy))

theorem Agrees.known (h : r.Agrees) {x e : EngineIdentity}
    (hx : x ∈ r.live) (heq : x.infoHashV1 = e.infoHashV1) : r.known e = true := by
  rw [TorrentRegistry.known, (h.hash e.infoHashV1 x).mpr ⟨hx, heq⟩, isSome_some,
    Bool.true_or]

theorem Agrees.not_known (h : r.Agrees) {a : Adding}
    (hnone : a.managed r.live = []) : r.known a.identity = false := by
  rw [Adding.managed, filter_eq_nil_iff] at hnone
  rw [TorrentRegistry.known, Bool.or_eq_false_iff]
  constructor
  · rw [isSome_eq_false_iff, isNone_iff_eq_none, eq_none_iff_forall_ne_some]
    intro e he
    obtain ⟨hmem, hhash⟩ := (h.hash _ _).mp he
    exact hnone e hmem (by simp [hhash, Adding.identity])
  · rw [isSome_eq_false_iff, isNone_iff_eq_none, eq_none_iff_forall_ne_some]
    intro k hk
    exact hnone _ ((h.id _ _).mp hk) (by simp)

theorem addMetainfo_cases (r : TorrentRegistry) (a : Adding) :
    (r.Free a ∧ r.addMetainfo a = none) ∨
    (∃ e ∈ r.live, ¬r.Free a ∧ r.addMetainfo a = some (e, r)) ∨
    (a.managed r.live = [] ∧
      r.addMetainfo a = some (a.identity, { r with live := a.identity :: r.live })) := by
  rw [addMetainfo, Free]
  by_cases hrejects : a.rejects = true
  · exact .inl ⟨.inl hrejects, if_pos hrejects⟩
  rw [if_neg hrejects]
  cases hfound : ((a.managed r.live).rotate a.found).head? with
  | some e =>
    have hmem : e ∈ a.managed r.live :=
      mem_rotate.mp (mem_of_mem_head? (mem_def.mpr hfound))
    refine .inr (.inl ⟨e, mem_of_mem_filter hmem, ?_, rfl⟩)
    rintro (h | h)
    · exact hrejects h
    · rw [h] at hmem
      cases hmem
  | none =>
    have hnil : a.managed r.live = [] := by
      rwa [head?_eq_none_iff, rotate_eq_nil_iff] at hfound
    by_cases hfails : a.fails = true
    · exact .inl ⟨.inr hnil, if_pos hfails⟩
    · exact .inr (.inr ⟨hnil, if_neg hfails⟩)

/-- **A live torrent that is deleted stays named.** -/
theorem Agrees.not_sessionDelete (h : r.Agrees)
    (he : e ∈ r.live) : ¬(r.sessionDelete e).Agrees := by
  intro hdel
  have hmem := ((hdel.hash e.infoHashV1 e).mp ((h.hash e.infoHashV1 e).mpr ⟨he, rfl⟩)).1
  rw [sessionDelete, mem_filter] at hmem
  simp at hmem

theorem sessionDelete_new {a : Adding} (hnone : a.managed r.live = []) :
    ({ r with live := a.identity :: r.live } : TorrentRegistry).sessionDelete a.identity = r := by
  have hkeep : r.live.filter (·.id ≠ a.identity.id) = r.live := by
    rw [Adding.managed, filter_eq_nil_iff] at hnone
    rw [filter_eq_self]
    intro e he
    have := hnone e he
    simp_all
  rw [sessionDelete, filter_cons_of_neg (by simp), hkeep]

theorem Agrees.insert (h : r.Agrees) {a : Adding}
    (hnone : a.managed r.live = []) :
    (({ r with live := a.identity :: r.live } : TorrentRegistry).insert a.identity).Agrees := by
  rw [Adding.managed, filter_eq_nil_iff] at hnone
  have hapart : ∀ e ∈ r.live, e.infoHashV1 ≠ a.infoHashV1 ∧ e.id ≠ a.identity.id := by
    intro e he
    simpa using hnone e he
  constructor
  · intro k e
    change Function.update r.byHash a.infoHashV1 (some a.identity) k = some e ↔
      e ∈ a.identity :: r.live ∧ e.infoHashV1 = k
    rw [mem_cons]
    by_cases hk : k = a.infoHashV1
    · subst hk
      rw [Function.update_self, some_inj]
      constructor
      · rintro rfl
        exact ⟨.inl rfl, rfl⟩
      · rintro ⟨rfl | he, hhash⟩
        · rfl
        · exact absurd hhash (hapart e he).1
    · rw [Function.update_of_ne hk, h.hash]
      constructor
      · exact fun ⟨he, hhash⟩ => ⟨.inr he, hhash⟩
      · rintro ⟨rfl | he, hhash⟩
        · exact absurd hhash.symm hk
        · exact ⟨he, hhash⟩
  · intro i k
    change Function.update r.idToHash a.identity.id (some a.infoHashV1) i = some k ↔
      ⟨i, k⟩ ∈ a.identity :: r.live
    rw [mem_cons]
    by_cases hi : i = a.identity.id
    · subst hi
      rw [Function.update_self, some_inj]
      constructor
      · rintro rfl
        exact .inl rfl
      · rintro (he | he)
        · exact (EngineIdentity.mk.inj he).2.symm
        · exact absurd rfl (hapart _ he).2
    · rw [Function.update_of_ne hi, h.id]
      constructor
      · exact .inr
      · rintro (he | he)
        · exact absurd (EngineIdentity.mk.inj he).1 hi
        · exact he

theorem addCommitted_iff (h : r.Agrees) (a : Adding) :
    ((r.addCommitted a).1.Agrees ↔ r.Free a) ∧
      (r.Free a → r.live ⊆ (r.addCommitted a).1.live) := by
  rw [addCommitted]
  rcases r.addMetainfo_cases a with ⟨hfree, heq⟩ | ⟨e, he, hnot, heq⟩ | ⟨hnone, heq⟩
  · rw [heq]
    exact ⟨iff_of_true h hfree, fun _ => List.Subset.refl _⟩
  · rw [heq]
    simp only [h.known he rfl, if_true]
    exact ⟨iff_of_false (h.not_sessionDelete he) hnot, fun hfree => absurd hfree hnot⟩
  · have hknown : known { r with live := a.identity :: r.live } a.identity =
        false := h.not_known hnone
    rw [heq]
    simp only [hknown, Bool.false_eq_true, if_false]
    exact ⟨iff_of_true (h.insert hnone) (.inr hnone), fun _ => subset_cons_self _ _⟩

theorem restoreOne_iff (h : r.Agrees) (d : RestoreDescriptor) :
    ((r.restoreOne d).1.Agrees ↔ r.precheck d ∨ r.Free d.metainfo) ∧
      ((r.restoreOne d).1.Agrees → r.live ⊆ (r.restoreOne d).1.live) ∧
      ((r.restoreOne d).2 → (r.restoreOne d).1.Agrees) := by
  rw [restoreOne]
  by_cases hpre : r.precheck d = true
  · rw [if_pos hpre]
    exact ⟨iff_of_true h (.inl hpre), fun _ => List.Subset.refl _, fun hgo => by cases hgo⟩
  rw [if_neg hpre]
  rcases r.addMetainfo_cases d.metainfo with ⟨hfree, heq⟩ | ⟨e, he, hnot, heq⟩ | ⟨hnone, heq⟩
  · rw [heq]
    exact ⟨iff_of_true h (.inr hfree), fun _ => List.Subset.refl _, fun hgo => by cases hgo⟩
  · rw [heq]
    simp only [h.known he rfl, if_true, ite_self]
    have hdel := h.not_sessionDelete he
    exact ⟨iff_of_false hdel (not_or.mpr ⟨hpre, hnot⟩), fun ha => absurd ha hdel,
      fun hgo => by cases hgo⟩
  · have hknown : known
        { r with live := d.metainfo.identity :: r.live } d.metainfo.identity = false :=
      h.not_known hnone
    rw [heq]
    simp only [hknown, Bool.false_eq_true, if_false, sessionDelete_new hnone]
    by_cases hhash : d.metainfo.identity.infoHashV1 ≠ d.expectedInfoHashV1
    · rw [if_pos hhash]
      exact ⟨iff_of_true h (.inr (.inr hnone)), fun _ => List.Subset.refl _,
        fun hgo => by cases hgo⟩
    · rw [if_neg hhash]
      exact ⟨iff_of_true (h.insert hnone) (.inr (.inr hnone)),
        fun _ => subset_cons_self d.metainfo.identity r.live, fun _ => h.insert hnone⟩

theorem restoreSelected_iff (ds : List RestoreDescriptor) (h : r.Agrees) :
    ((r.restoreSelected ds).Agrees ↔ r.CleanRestore ds) ∧
      (r.CleanRestore ds → r.live ⊆ (r.restoreSelected ds).live) := by
  induction ds generalizing r with
  | nil => exact ⟨iff_of_true h trivial, fun _ => List.Subset.refl _⟩
  | cons d ds ih =>
    obtain ⟨hiff, hsub, hgo⟩ := restoreOne_iff h d
    rw [restoreSelected, CleanRestore, ← hiff]
    by_cases hok : (r.restoreOne d).2 = true
    · rw [if_pos hok]
      obtain ⟨hrest, hlive⟩ := ih (hgo hok)
      constructor
      · rw [hrest]
        exact ⟨fun hclean => ⟨hgo hok, fun _ => hclean⟩, fun hall => hall.2 hok⟩
      · exact fun hall => List.Subset.trans (hsub hall.1) (hlive (hall.2 hok))
    · rw [if_neg hok]
      exact ⟨⟨fun ha => ⟨ha, fun hok' => absurd hok' hok⟩, fun hall => hall.1⟩,
        fun hall => hsub hall.1⟩

theorem delete_iff (h : r.Agrees) (e : EngineIdentity)
    (deleteFiles storageFails : Bool) :
    (r.delete e deleteFiles storageFails).Agrees ↔
      ¬((r.handle e).isSome ∧ deleteFiles ∧ storageFails) := by
  rw [delete]
  cases hhandle : r.handle e with
  | none => exact iff_of_true h (fun hall => by cases hall.1)
  | some x =>
    rw [handle, filter_eq_some_iff, h.hash, decide_eq_true_eq] at hhandle
    obtain ⟨⟨hx, hhash⟩, hid⟩ := hhandle
    obtain rfl : x = e := by cases x; cases e; simp_all
    have hmem : x.id ∈ r.live.map (·.id) := mem_map_of_mem hx
    by_cases hfail : deleteFiles = true ∧ storageFails = true
    · simp only [hmem, hfail, and_self, if_true]
      exact iff_of_false (h.not_sessionDelete hx) (by simp)
    · simp only [hmem, true_and, if_neg hfail]
      refine iff_of_true ⟨?_, ?_⟩ (fun hall => hfail hall.2)
      · intro k y
        change Function.update r.byHash x.infoHashV1 none k = some y ↔
          y ∈ r.live.filter (·.id ≠ x.id) ∧ y.infoHashV1 = k
        rw [mem_filter, decide_eq_true_eq]
        by_cases hk : k = x.infoHashV1
        · subst hk
          rw [Function.update_self]
          refine iff_of_false (by simp) ?_
          rintro ⟨⟨hy, hne⟩, hhash⟩
          exact hne (by rw [h.eq_of_hash hy hx hhash])
        · rw [Function.update_of_ne hk, h.hash]
          refine ⟨fun ⟨hy, hhash⟩ => ⟨⟨hy, fun heq => ?_⟩, hhash⟩, fun hy => ⟨hy.1.1, hy.2⟩⟩
          exact hk (hhash.symm.trans (h.hash_eq_of_id hy hx heq))
      · intro i k
        change Function.update r.idToHash x.id none i = some k ↔
          ⟨i, k⟩ ∈ r.live.filter (·.id ≠ x.id)
        rw [mem_filter, decide_eq_true_eq]
        by_cases hi : i = x.id
        · subst hi
          rw [Function.update_self]
          exact iff_of_false (by simp) (fun hy => hy.2 rfl)
        · rw [Function.update_of_ne hi, h.id]
          exact ⟨fun hy => ⟨hy, hi⟩, fun hy => hy.1⟩

theorem step_iff (h : r.Agrees) (c : RegistryCall) :
    (r.step c).Agrees ∧ r.InPlace c ↔ r.Clean c := by
  cases c with
  | addCommitted a =>
    obtain ⟨hiff, hlive⟩ := addCommitted_iff h a
    exact ⟨fun hall => hiff.mp hall.1, fun hclean => ⟨hiff.mpr hclean, hlive hclean⟩⟩
  | restoreSelected ds =>
    obtain ⟨hiff, hlive⟩ := restoreSelected_iff ds h
    exact ⟨fun hall => hiff.mp hall.1, fun hclean => ⟨hiff.mpr hclean, hlive hclean⟩⟩
  | delete e deleteFiles storageFails =>
    exact (and_iff_left trivial).trans (delete_iff h e deleteFiles storageFails)

theorem throughout_iff (cs : List RegistryCall) (h : r.Agrees) :
    r.AgreesThroughout cs ↔ r.CleanThroughout cs := by
  induction cs generalizing r with
  | nil => exact Iff.rfl
  | cons c cs ih =>
    rw [AgreesThroughout, CleanThroughout, step_iff h]
    constructor
    · rintro ⟨hclean, hrest⟩
      exact ⟨hclean, (ih ((step_iff h c).mpr hclean).1).mp hrest⟩
    · rintro ⟨hclean, hrest⟩
      exact ⟨hclean, (ih ((step_iff h c).mpr hclean).1).mpr hrest⟩

theorem agrees_new : new.Agrees := ⟨by simp [new], by simp [new]⟩

end TorrentRegistry

/-- **Identities of a torrent.**  The plan asks for each once and a fact goes to its
own job; the registry names the live torrents as long as the calls are clean. -/
theorem agrees_iff_clean (jobs : List Job) (hjobs : (jobs.map (·.id)).Nodup)
    (calls : List (JobId × EngineIdentity)) (e : EngineIdentity) (fact : EngineStructuralFact)
    (cs : List RegistryCall) :
    (((planRestore w observed allowed roots jobs).requests.map (·.job)).Nodup ∧
      ((planRestore w observed allowed roots jobs).requests.map (·.infoHashV1)).Nodup ∧
      ((planRestore w observed allowed roots jobs).requests.filterMap
        (·.preferredEngineId)).Nodup) ∧
    ((RuntimeAssociations.associateAll calls .empty).Inverse ∧
      ∀ f, (RuntimeAssociations.associateAll calls .empty).translateFact e fact = some f →
        (factJob f, e) ∈ calls) ∧
    (TorrentRegistry.new.AgreesThroughout cs ↔ TorrentRegistry.new.CleanThroughout cs) := by
  obtain ⟨hinv, hasked⟩ :=
    RuntimeAssociations.associateAll_spec calls RuntimeAssociations.inverse_empty
  refine ⟨planRestore_distinct w observed allowed roots jobs hjobs, ⟨hinv, fun f hf => ?_⟩,
    TorrentRegistry.throughout_iff cs TorrentRegistry.agrees_new⟩
  rcases hasked _ _ (RuntimeAssociations.translateFact_sound hinv hf) with h | h
  · exact h
  · cases h

/-- One job, and a torrent that is deleted between two adds. -/
theorem agrees_iff_clean_again :
    ([plainJob].map (·.id)).Nodup ∧
    (TorrentRegistry.new.AgreesThroughout
        [.addCommitted ⟨['a'], none, false, 0, 0, false⟩,
          .delete ⟨0, ['a']⟩ false false, .addCommitted ⟨['a'], none, false, 1, 0, false⟩] ↔
      TorrentRegistry.new.CleanThroughout
        [.addCommitted ⟨['a'], none, false, 0, 0, false⟩,
          .delete ⟨0, ['a']⟩ false false, .addCommitted ⟨['a'], none, false, 1, 0, false⟩]) :=
  ⟨by decide, (agrees_iff_clean (fairWorld 0) (fun _ => none) [] [] [plainJob] (by decide) []
    ⟨0, ['a']⟩ .transient _).2.2⟩

/-- The second add of a torrent takes the first one out of the engine, and the
registry goes on naming it. -/
theorem second_add_deletes :
    let r := (TorrentRegistry.new.addCommitted ⟨['a'], none, false, 0, 0, false⟩).1
    r.live = [⟨0, ['a']⟩] ∧
      r.addCommitted ⟨['a'], none, false, 1, 0, false⟩ = (r.sessionDelete ⟨0, ['a']⟩, false) ∧
      (r.sessionDelete ⟨0, ['a']⟩).live = [] ∧
      (r.sessionDelete ⟨0, ['a']⟩).byHash ['a'] = some ⟨0, ['a']⟩ ∧
      ¬TorrentRegistry.new.AgreesThroughout
        [.addCommitted ⟨['a'], none, false, 0, 0, false⟩,
          .addCommitted ⟨['a'], none, false, 1, 0, false⟩] := by
  refine ⟨by decide, rfl, by decide, by decide, fun hall => ?_⟩
  have hclean := (TorrentRegistry.throughout_iff _ TorrentRegistry.agrees_new).mp hall
  rcases hclean.2.1 with hrejects | hnone
  · cases hrejects
  · revert hnone
    decide

end Nzbd.Torrent
