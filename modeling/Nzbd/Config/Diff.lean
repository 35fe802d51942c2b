import Nzbd.Config.Validate

/-!
# What a change of the settings touches

`diffSections` compares two configurations part by part.  What a running daemon can take
over has a name of its own (`LiveName`) and is held equal before the rest of its section is
compared; everything else is announced by its section and waits for a restart.

* `mem_live_iff`, `mem_restart_iff`: **a name is reported exactly if its part differs.**
* `diffSections_eq_nil_iff`: nothing is reported of equal configurations, and of no others.

The comparison is that of the language: a number that is none differs from itself.  In a valid
configuration there is none (`categoriesEq_iff`, `torrentEq_iff`).
-/

namespace Nzbd.Config

open List

/-! ### The names -/

inductive LiveName
  | connections
  | speedLimit
  | maxActiveDownloads
  | torrentUploadLimit
  deriving DecidableEq

inductive SectionName
  | paths
  | servers
  | categories
  | feeds
  | queue
  | api
  | history
  | postProcessing
  | cluster
  | torrent
  deriving DecidableEq

/-! ### Comparisons -/

def optionEq (a b : Option F64) : Bool :=
  match a, b with
  | none, none => true
  | some a, some b => a.eq b
  | _, _ => false

/-- All fields; the ratio is compared as a number. -/
def categoryEq (a b : CategoryConfig) : Bool :=
  decide ({ a with seedRatio := none } = { b with seedRatio := none }) &&
    optionEq a.seedRatio b.seedRatio

def categoriesEq : List CategoryConfig → List CategoryConfig → Bool
  | [], [] => true
  | a :: as, b :: bs => categoryEq a b && categoriesEq as bs
  | _, _ => false

/-- All fields; the ratio is compared as a number. -/
def torrentEq (a b : TorrentConfig) : Bool :=
  decide ({ a with defaultSeedRatio := .finite 0 } = { b with defaultSeedRatio := .finite 0 }) &&
    a.defaultSeedRatio.eq b.defaultSeedRatio

def serverConnsChanged (old new : Config) : Bool :=
  if old.servers.length ≠ new.servers.length then false
  else (old.servers.zip new.servers).any fun (o, n) => decide (o.connections ≠ n.connections)

def uncounted (s : ServerConfig) : ServerConfig := { s with connections := 0 }

def serversEqualIgnoringConnections (old new : Config) : Bool :=
  if old.servers.length ≠ new.servers.length then false
  else (old.servers.zip new.servers).all fun (o, n) => decide (uncounted o = uncounted n)

/-- The part of the queue section that is not live. -/
def restQueue (q : QueueConfig) : QueueConfig :=
  { q with speedLimitKib := none, maxActiveDownloads := 0 }

def restTorrent (t : TorrentConfig) : TorrentConfig := { t with uploadLimitKib := 0 }

def pushIf {α : Type*} (c : Bool) (a : α) : List α := if c then [a] else []

def diffSections (old new : Config) : List LiveName × List SectionName :=
  (pushIf (serverConnsChanged old new) .connections ++
    pushIf (old.queue.speedLimitKib ≠ new.queue.speedLimitKib) .speedLimit ++
    pushIf (old.queue.maxActiveDownloads ≠ new.queue.maxActiveDownloads) .maxActiveDownloads ++
    pushIf (old.torrent.uploadLimitKib ≠ new.torrent.uploadLimitKib) .torrentUploadLimit,
   pushIf (old.paths ≠ new.paths) .paths ++
    pushIf (!serversEqualIgnoringConnections old new) .servers ++
    pushIf (!categoriesEq old.categories new.categories) .categories ++
    pushIf (old.feeds ≠ new.feeds) .feeds ++
    pushIf (restQueue old.queue ≠ restQueue new.queue) .queue ++
    pushIf (old.api ≠ new.api) .api ++
    pushIf (old.history ≠ new.history) .history ++
    pushIf (old.post ≠ new.post) .postProcessing ++
    pushIf (old.cluster ≠ new.cluster) .cluster ++
    pushIf (!torrentEq (restTorrent old.torrent) (restTorrent new.torrent)) .torrent)

/-! ### What the names stand for -/

/-- The live part has the same value in both. -/
def LiveName.Same (old new : Config) : LiveName → Prop
  | .connections => old.servers.length = new.servers.length →
      old.servers.map (·.connections) = new.servers.map (·.connections)
  | .speedLimit => old.queue.speedLimitKib = new.queue.speedLimitKib
  | .maxActiveDownloads => old.queue.maxActiveDownloads = new.queue.maxActiveDownloads
  | .torrentUploadLimit => old.torrent.uploadLimitKib = new.torrent.uploadLimitKib

/-- The section has the same values in both, its live part apart. -/
def SectionName.Same (old new : Config) : SectionName → Prop
  | .paths => old.paths = new.paths
  | .servers => old.servers.map uncounted = new.servers.map uncounted
  | .categories => old.categories = new.categories
  | .feeds => old.feeds = new.feeds
  | .queue => restQueue old.queue = restQueue new.queue
  | .api => old.api = new.api
  | .history => old.history = new.history
  | .postProcessing => old.post = new.post
  | .cluster => old.cluster = new.cluster
  | .torrent => restTorrent old.torrent = restTorrent new.torrent

@[simp] theorem mem_pushIf {α : Type*} {c : Bool} {a b : α} :
    a ∈ pushIf c b ↔ c = true ∧ a = b := by
  cases c <;> simp [pushIf]

/-- **The parts are all there is.** -/
theorem eq_iff_same (old new : Config) :
    old = new ↔ (∀ n : LiveName, n.Same old new) ∧ ∀ s : SectionName, s.Same old new := by
  constructor
  · rintro rfl
    exact ⟨fun n => by cases n <;> first | rfl | exact fun _ => rfl, fun s => by cases s <;> rfl⟩
  · rintro ⟨hlive, hsection⟩
    obtain ⟨paths, servers, categories, feeds, queue, api, post, history, cluster, torrent⟩ := old
    obtain ⟨paths', servers', categories', feeds', queue', api', post', history', cluster',
      torrent'⟩ := new
    have hqueue : queue = queue' := by
      have hrest := hsection .queue
      have hspeed := hlive .speedLimit
      have hmax := hlive .maxActiveDownloads
      simp only [SectionName.Same, LiveName.Same, restQueue] at hrest hspeed hmax
      cases queue
      cases queue'
      simp_all
    have htorrent : torrent = torrent' := by
      have hrest := hsection .torrent
      have hupload := hlive .torrentUploadLimit
      simp only [SectionName.Same, LiveName.Same, restTorrent] at hrest hupload
      cases torrent
      cases torrent'
      simp_all
    have hservers : servers = servers' := by
      have hrest : servers.map uncounted = servers'.map uncounted := hsection .servers
      have hlen : servers.length = servers'.length := by simpa using congrArg length hrest
      have hcounts : servers.map (·.connections) = servers'.map (·.connections) :=
        hlive .connections hlen
      refine ext_getElem hlen fun i hi hi' => ?_
      have hr := getElem_of_eq hrest (by simpa using hi)
      have hc := getElem_of_eq hcounts (by simpa using hi)
      rw [getElem_map, getElem_map] at hr hc
      generalize servers[i] = a at hr hc
      generalize servers'[i] = b at hr hc
      cases a
      cases b
      simp_all [uncounted]
    have hpaths : paths = paths' := hsection .paths
    have hcategories : categories = categories' := hsection .categories
    have hfeeds : feeds = feeds' := hsection .feeds
    have hapi : api = api' := hsection .api
    have hhistory : history = history' := hsection .history
    have hpost : post = post' := hsection .postProcessing
    have hcluster : cluster = cluster' := hsection .cluster
    rw [hpaths, hservers, hcategories, hfeeds, hqueue, hapi, hpost, hhistory, hcluster, htorrent]

/-! ### Numbers -/

theorem optionEq_iff {a b : Option F64} (h : ∀ r ∈ a, r.isFinite = true) :
    optionEq a b = true ↔ a = b := by
  cases a with
  | none => cases b <;> simp [optionEq]
  | some a =>
    cases b with
    | none => simp [optionEq]
    | some b => simp [optionEq, F64.eq_iff (h a rfl)]

theorem categoryEq_iff {a b : CategoryConfig} (h : ∀ r ∈ a.seedRatio, r.isFinite = true) :
    categoryEq a b = true ↔ a = b := by
  rw [categoryEq, Bool.and_eq_true, decide_eq_true_eq, optionEq_iff h]
  constructor
  · rintro ⟨hrest, hratio⟩
    cases a
    cases b
    simp_all
  · rintro rfl
    exact ⟨rfl, rfl⟩

theorem categoriesEq_iff {as bs : List CategoryConfig}
    (h : ∀ c ∈ as, ∀ r ∈ c.seedRatio, r.isFinite = true) :
    categoriesEq as bs = true ↔ as = bs := by
  induction as generalizing bs with
  | nil => cases bs <;> simp [categoriesEq]
  | cons a as ih =>
    cases bs with
    | nil => simp [categoriesEq]
    | cons b bs =>
      rw [categoriesEq, Bool.and_eq_true, categoryEq_iff (h a (mem_cons_self ..)),
        ih fun c hc => h c (mem_cons_of_mem _ hc), cons.injEq]

theorem torrentEq_iff {a b : TorrentConfig} (h : a.defaultSeedRatio.isFinite = true) :
    torrentEq a b = true ↔ a = b := by
  rw [torrentEq, Bool.and_eq_true, decide_eq_true_eq, F64.eq_iff h]
  constructor
  · rintro ⟨hrest, hratio⟩
    cases a
    cases b
    simp_all
  · rintro rfl
    exact ⟨rfl, rfl⟩

/-! ### What is reported -/

section Reported

variable {old new : Config}

theorem serverConnsChanged_iff :
    serverConnsChanged old new = true ↔ ¬LiveName.connections.Same old new := by
  simp only [serverConnsChanged, LiveName.Same]
  by_cases hlen : old.servers.length = new.servers.length
  · rw [if_neg (by simpa using hlen), forall_prop_of_true hlen, any_eq_true]
    constructor
    · rintro ⟨⟨o, n⟩, hmem, hne⟩ heq
      obtain ⟨i, hi, hon⟩ := getElem_of_mem hmem
      rw [getElem_zip, Prod.mk.injEq] at hon
      rw [length_zip] at hi
      have hi' := getElem_of_eq heq (i := i) (by rw [length_map]; omega)
      rw [getElem_map, getElem_map, hon.1, hon.2] at hi'
      exact of_decide_eq_true hne hi'
    · intro hne
      by_contra hnone
      refine hne (ext_getElem (by simpa using hlen) fun i hi hi' => ?_)
      rw [length_map] at hi hi'
      rw [getElem_map, getElem_map]
      by_contra hcount
      refine hnone ⟨(old.servers[i], new.servers[i]), ?_, decide_eq_true hcount⟩
      have hz : i < (old.servers.zip new.servers).length := by rw [length_zip]; omega
      have := getElem_mem hz
      rwa [getElem_zip] at this
  · rw [if_pos hlen]
    exact ⟨fun h => (by cases h), fun h => absurd (fun hl => absurd hl hlen) h⟩

theorem serversEqualIgnoringConnections_iff :
    serversEqualIgnoringConnections old new = true ↔ SectionName.servers.Same old new := by
  simp only [serversEqualIgnoringConnections, SectionName.Same]
  by_cases hlen : old.servers.length = new.servers.length
  · rw [if_neg (by simpa using hlen), all_eq_true]
    constructor
    · intro hall
      refine ext_getElem (by simpa using hlen) fun i hi hi' => ?_
      rw [length_map] at hi hi'
      have hz : i < (old.servers.zip new.servers).length := by rw [length_zip]; omega
      have hmem := getElem_mem hz
      rw [getElem_zip] at hmem
      rw [getElem_map, getElem_map]
      exact of_decide_eq_true (hall _ hmem)
    · rintro heq ⟨o, n⟩ hmem
      obtain ⟨i, hi, hon⟩ := getElem_of_mem hmem
      rw [getElem_zip, Prod.mk.injEq] at hon
      rw [length_zip] at hi
      have hi' := getElem_of_eq heq (i := i) (by rw [length_map]; omega)
      rw [getElem_map, getElem_map, hon.1, hon.2] at hi'
      exact decide_eq_true hi'
  · rw [if_pos hlen]
    exact ⟨fun h => (by cases h), fun h => absurd (by simpa using congrArg length h) hlen⟩

theorem mem_live_iff (old new : Config) (n : LiveName) :
    n ∈ (diffSections old new).1 ↔ ¬n.Same old new := by
  cases n with
  | connections => simp [diffSections, ← serverConnsChanged_iff]
  | _ => simp [diffSections, LiveName.Same]

theorem mem_restart_iff (hold : Sound old) (s : SectionName) :
    s ∈ (diffSections old new).2 ↔ ¬s.Same old new := by
  have hcategories : categoriesEq old.categories new.categories = true ↔
      old.categories = new.categories := categoriesEq_iff hold.seedRatios
  have htorrent : torrentEq (restTorrent old.torrent) (restTorrent new.torrent) = true ↔
      restTorrent old.torrent = restTorrent new.torrent := torrentEq_iff hold.seedRatio
  cases s with
  | servers => simp [diffSections, ← serversEqualIgnoringConnections_iff]
  | categories => simp [diffSections, SectionName.Same, ← hcategories]
  | torrent => simp [diffSections, SectionName.Same, ← htorrent]
  | _ => simp [diffSections, SectionName.Same]

/-- **Nothing goes unreported**, and nothing is reported of equal configurations. -/
theorem diffSections_eq_nil_iff (hold : Sound old) :
    diffSections old new = ([], []) ↔ old = new := by
  rw [eq_iff_same, Prod.ext_iff, eq_nil_iff_forall_not_mem, eq_nil_iff_forall_not_mem]
  simp only [mem_live_iff, mem_restart_iff hold, not_not]

end Reported

end Nzbd.Config
