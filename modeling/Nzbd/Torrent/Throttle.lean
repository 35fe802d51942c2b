import Nzbd.Config.Validate
import Nzbd.Torrent.Fifo

/-!
# The speed limit

The operator sets one limit for both backends, through the settings, through the
native interface in bytes per second or through the compatible one in KiB per
second.  The owner divides it (`allocateDownloadBudget`), at once and again at
every tick: the share of Usenet goes to the `RateLimiter`, which reads `0` as no
limit, and that of the torrents through the queue of commands to the adapter,
which reads what is no positive 32-bit number as no limit.

* `allocate_spec`: **the two shares of an aggregate are limits that add up to it.**
* `Throttle.Consistent`: what was noted as applied is in force.  Every step of the
  owner keeps it (`consistent_of_run`); a step that is not about limits sends no
  limit (`spares_step`).
* `limit_respected_iff`: the caps in force respect the request exactly if the
  request does not wrap and the share of the torrents gets through.
-/

namespace Nzbd.Torrent

open Runs (Run)

/-! ### Division -/

def sharedDownloadFloorBps : Nat := 1024 * 1024

/-- Which backends are active, and what was measured of them. -/
structure Load where
  usenetActive : Bool
  torrentActive : Bool
  usenetRateBps : Nat
  torrentRateBps : Nat

def allocateDownloadBudget (aggregate : Option Nat) (l : Load) : Option Nat × Option Nat :=
  match aggregate with
  | none => (none, none)
  | some limit =>
    match l.usenetActive, l.torrentActive with
    | true, false => (some limit, none)
    | false, true => (none, some limit)
    | false, false => (some limit, none)
    | true, true =>
      let half := limit / 2
      let floor := min sharedDownloadFloorBps half
      if l.usenetRateBps < half then
        let usenet := min (max l.usenetRateBps floor) half
        (some usenet, some (limit - usenet))
      else if l.torrentRateBps < half then
        let torrent := min (max l.torrentRateBps floor) half
        (some (limit - torrent), some torrent)
      else (some half, some (limit - half))

/-- Bytes per second, `0` for no limit. -/
structure RateLimiter where
  rate : Nat

namespace RateLimiter

def set (rateBps : Option Nat) : RateLimiter := ⟨rateBps.getD 0⟩

def get (r : RateLimiter) : Option Nat := if r.rate = 0 then none else some r.rate

theorem get_set {n : Nat} (h : 0 < n) : (set (some n)).get = some n := if_neg (by simp [set]; omega)

end RateLimiter

/-- What the adapter makes of a limit. -/
def rateLimit (bytesPerSec : Option Nat) : Option Nat :=
  bytesPerSec.bind fun rate => if rate < 2 ^ 32 ∧ rate ≠ 0 then some rate else none

theorem rateLimit_some {n : Nat} (h : 0 < n) :
    rateLimit (some n) = if n < 2 ^ 32 then some n else none := by
  have hne : n ≠ 0 := by omega
  simp [rateLimit, hne]

/-! ### The limits among the commands -/

def limitsOf (log : List Event) : List (Option Nat) :=
  (acceptedOf log).filterMap fun
    | .setDownloadLimit l => some l
    | _ => none

/-- No limit has been applied or sent. -/
structure Spares (o o' : Owner) : Prop where
  applied : o'.appliedTorrentLimit = o.appliedTorrentLimit
  limits : limitsOf o'.log = limitsOf o.log

namespace Spares

variable {o o' : Owner}

theorem refl (o : Owner) : Spares o o := ⟨rfl, rfl⟩

theorem trans {o'' : Owner} (h : Spares o o') (h' : Spares o' o'') : Spares o o'' :=
  ⟨h'.applied.trans h.applied, h'.limits.trans h.limits⟩

theorem of_quiet (hq : Quiet o o') (h : o'.appliedTorrentLimit = o.appliedTorrentLimit) :
    Spares o o' := ⟨h, by rw [limitsOf, limitsOf, hq.accepted]⟩

end Spares

variable {w : World} {o o' : Owner}

def BackendCommand.limits : BackendCommand → Bool
  | .setDownloadLimit _ => true
  | _ => false

theorem OnlyCommands.applied (h : OnlyCommands o o') :
    o'.appliedTorrentLimit = o.appliedTorrentLimit := by
  obtain ⟨_, _, _, rfl⟩ := h
  rfl

theorem limitsOf_accepts {c : BackendCommand} (h : Accepts o o' c) (hc : c.limits = false) :
    limitsOf o'.log = limitsOf o.log := by
  rw [limitsOf, limitsOf, h.accepted, List.filterMap_append]
  cases c <;> first | exact List.append_nil _ | cases hc

theorem spares_saveSnapshot (w : World) (o : Owner) : Spares o (o.saveSnapshot w).2 := by
  refine .of_quiet (quiet_saveSnapshot w o) ?_
  simp only [Owner.saveSnapshot]
  split
  · split <;> rfl
  · rfl

theorem spares_persistIfOwner (w : World) (o : Owner) : Spares o (o.persistIfOwner w).2 := by
  simp only [Owner.persistIfOwner]
  split
  · exact spares_saveSnapshot w o
  · exact .refl o

theorem spares_enqueueBackendCommand (w : World) (o : Owner) {c : BackendCommand}
    (hc : c.limits = false) : Spares o (o.enqueueBackendCommand w c).2 := by
  have happlied := (onlyCommands_enqueueBackendCommand w o c).applied
  rcases enqueueBackendCommand_spec w o c with ⟨-, hq⟩ | ⟨-, ha⟩
  · exact .of_quiet hq happlied
  · exact ⟨happlied, limitsOf_accepts ha hc⟩

theorem spares_persistThenCommand (w : World) (o : Owner) {c : BackendCommand}
    (hc : c.limits = false) : Spares o (o.persistThenCommand w c).2 := by
  have hsave := spares_persistIfOwner w o
  have happlied : (o.persistThenCommand w c).2.appliedTorrentLimit = o.appliedTorrentLimit := by
    rcases onlyCommands_persistThenCommand w o c with h | h
    · exact h.applied
    · exact h.applied.trans hsave.applied
  rcases persistThenCommand_spec w o c with ⟨-, hq⟩ | ⟨-, -, ha⟩
  · exact .of_quiet hq happlied
  · exact ⟨happlied, (limitsOf_accepts ha hc).trans hsave.limits⟩

theorem spares_flushFrom (w : World) (cs : List BackendCommand) (o : Owner) :
    Spares o (Owner.flushFrom w cs o) := by
  obtain ⟨l, -, -, haccepted⟩ := flushFrom_spec w cs o
  exact ⟨(onlyCommands_flushFrom w cs o).applied, by rw [limitsOf, limitsOf, haccepted]⟩

theorem respects_spares (w : World) : Respects w (fun _ _ => True) (·.limits = false) Spares where
  same _ := trivial
  refl := .refl
  trans := .trans
  beside h _ := by
    obtain ⟨_, _, _, _, _, rfl⟩ := h
    exact .of_quiet (.still rfl rfl rfl) rfl
  putBack h _ := h.trans (.of_quiet (.still rfl rfl rfl) rfl)
  enqueue o _ hc := spares_enqueueBackendCommand w o hc
  persistThen o _ hc := spares_persistThenCommand w o hc
  flush o := spares_flushFrom w o.pendingBackendCommands o
  save o := spares_saveSnapshot w o
  record o id at' := by
    refine .of_quiet (quiet_record w o id at') ?_
    simp only [Owner.record]
    split <;> rfl

/-- The messages and the parts of a tick that set the limit on downloads. -/
def Input.limits : Input → Bool
  | .setSpeedLimit _ => true
  | .rebalance _ => true
  | _ => false

/-- **Nothing else sends a limit.** -/
theorem spares_step (w : World) (o : Owner) {i : Input} (hi : i.limits = false) :
    Spares o (o.step w i) := by
  have hclock : ∀ (o : Owner) jobs clock, Spares o { o with jobs := jobs, seedClockUnix := clock } :=
    fun _ _ _ => .of_quiet (.still rfl rfl rfl) rfl
  refine (respects_spares w).step o ?_
  cases i with
  | setSpeedLimit limit => cases hi
  | rebalance limit => cases hi
  | updateSeedPolicies =>
    exact ⟨fun _ => rfl, fun _ _ => trivial, fun _ _ => trivial, fun o jobs clock _ => hclock o jobs clock⟩
  | _ => simp [Allows, BackendCommand.limits]

/-! ### The owner and its limits -/

/-- The part of the owner that keeps the limit, with the link to the adapter. -/
structure Throttle where
  link : Link
  speedLimitBps : Option Nat
  appliedUsenetLimit : Option (Option Nat)
  limiter : RateLimiter

namespace Throttle

def rebalanceDownloadBudget (t : Throttle) (w : World) (l : Load) : Throttle :=
  let (usenetLimit, torrentLimit) := allocateDownloadBudget t.speedLimitBps l
  let owner := t.link.owner.rebalanceDownloadBudget w torrentLimit
  if t.appliedUsenetLimit ≠ some usenetLimit then
    { t with
      link := { t.link with owner := owner }
      limiter := .set usenetLimit
      appliedUsenetLimit := some usenetLimit }
  else { t with link := { t.link with owner := owner } }

/-- A new limit, and nothing counts as applied. -/
def renew (t : Throttle) (bytesPerSec : Option Nat) : Throttle :=
  { t with
    link := { t.link with owner := { t.link.owner with appliedTorrentLimit := none } }
    speedLimitBps := bytesPerSec
    appliedUsenetLimit := none }

def setSpeedLimit (t : Throttle) (w : World) (bytesPerSec : Option Nat) (l : Load) : Throttle :=
  (t.renew bytesPerSec).rebalanceDownloadBudget w l

/-- A queue that is taken over brings its limit along. -/
def adoptAuthority (t : Throttle) (speedLimitBps : Option Nat) : Throttle :=
  if t.speedLimitBps = none then
    { t with speedLimitBps := speedLimitBps, limiter := .set speedLimitBps }
  else t

/-- The limit the adapter has been told, in its reading. -/
def torrentCap (t : Throttle) : Option Nat :=
  rateLimit ((limitsOf t.link.owner.log).getLast?.getD none)

inductive Input
  | setSpeedLimit (w : World) (bytesPerSec : Option Nat) (l : Load)
  | rebalance (w : World) (l : Load)
  | adopt (speedLimitBps : Option Nat)
  | owner (w : World) (i : Torrent.Input) (h : i.limits = false)
  | elsewhere (jobs : List Job) (persist : Bool)
  | report (fact : BackendFact)
  | receive

def step (t : Throttle) : Input → Throttle
  | .setSpeedLimit w b l => t.setSpeedLimit w b l
  | .rebalance w l => t.rebalanceDownloadBudget w l
  | .adopt b => t.adoptAuthority b
  | .owner w i _ => { t with link := t.link.step (.owner w i) }
  | .elsewhere jobs persist => { t with link := t.link.step (.elsewhere jobs persist) }
  | .report fact => { t with link := t.link.step (.report fact) }
  | .receive => { t with link := t.link.step .receive }

def Next (t : Throttle) (i : Input) (t' : Throttle) : Prop := t' = t.step i

/-- The limiter starts with the limit of the file or of the saved queue. -/
structure Start (t : Throttle) : Prop where
  link : t.link.Start
  appliedTorrent : t.link.owner.appliedTorrentLimit = none
  appliedUsenet : t.appliedUsenetLimit = none
  limiter : t.limiter = .set t.speedLimitBps

/-- What was noted as applied is in force. -/
structure Consistent (t : Throttle) : Prop where
  usenet : ∀ n, t.appliedUsenetLimit = some (some n) → t.limiter = .set (some n)
  unlimited : t.speedLimitBps = none → ∀ n, t.appliedUsenetLimit ≠ some (some n)
  torrent : ∀ l, t.link.owner.appliedTorrentLimit = some l →
    (limitsOf t.link.owner.log).getLast? = some l

end Throttle

abbrev ThrottleRun : Throttle → Prop := Run Throttle.Start Throttle.Next fun _ _ => True

/-! ### What was applied -/

theorem limitsOf_accepts_limit {l : Option Nat} (h : Accepts o o' (.setDownloadLimit l)) :
    limitsOf o'.log = limitsOf o.log ++ [l] := by
  rw [limitsOf, h.accepted, List.filterMap_append]
  rfl

theorem enqueueBackendCommand_refused (w : World) (o : Owner) (c : BackendCommand) :
    (o.enqueueBackendCommand w c).1 = false ↔
      o.pendingBackendCommands.length = maxPendingBackendCommands := by
  have hzero : ([] : List BackendCommand).length ≠ maxPendingBackendCommands := by decide
  simp only [Owner.enqueueBackendCommand]
  split
  · split
    · next hfull => exact ⟨fun _ => hfull, fun _ => rfl⟩
    · next hroom => exact ⟨fun h => absurd h (by simp), fun h => absurd h hroom⟩
  · next hnil =>
    rw [ne_eq, not_not] at hnil
    rw [hnil]
    rw [iff_false_right hzero, Bool.not_eq_false]
    cases htakes : w.takes o.log.length with
    | true => rw [tryCommand_takes htakes, if_pos rfl]
    | false =>
      rw [tryCommand_full htakes, if_neg Bool.false_ne_true]
      exact congrArg Prod.fst (if_neg (by simpa [Owner.note, hnil] using hzero))

theorem rebalanceDownloadBudget_spec (w : World) (o : Owner) (l : Option Nat)
    (h : ∀ l, o.appliedTorrentLimit = some l → (limitsOf o.log).getLast? = some l) :
    let o' := o.rebalanceDownloadBudget w l
    (∀ l, o'.appliedTorrentLimit = some l → (limitsOf o'.log).getLast? = some l) ∧
      (limitsOf o'.log).getLast? =
        if o.pendingBackendCommands.length = maxPendingBackendCommands ∧
          o.appliedTorrentLimit ≠ some l then (limitsOf o.log).getLast? else some l := by
  have hrefused := enqueueBackendCommand_refused w o (.setDownloadLimit l)
  have happlied := (onlyCommands_enqueueBackendCommand w o (.setDownloadLimit l)).applied
  intro o'
  by_cases hsame : o.appliedTorrentLimit = some l
  · have ho' : o' = o := if_pos hsame
    rw [ho', if_neg (by simp [hsame])]
    exact ⟨h, h l hsame⟩
  · rcases enqueueBackendCommand_spec w o (.setDownloadLimit l) with ⟨hno, hq⟩ | ⟨hyes, ha⟩
    · have ho' : o' = (o.enqueueBackendCommand w (.setDownloadLimit l)).2 := by
        simp [o', Owner.rebalanceDownloadBudget, hsame, hno]
      have hlog : limitsOf o'.log = limitsOf o.log := by
        rw [ho', limitsOf, limitsOf, hq.accepted]
      rw [hlog, if_pos ⟨hrefused.mp hno, hsame⟩]
      exact ⟨fun m hm => h m (by rwa [ho', happlied] at hm), rfl⟩
    · have ho' : o' = { (o.enqueueBackendCommand w (.setDownloadLimit l)).2 with
          appliedTorrentLimit := some l } := by
        simp [o', Owner.rebalanceDownloadBudget, hsame, hyes]
      have hlast : (limitsOf o'.log).getLast? = some l := by
        rw [ho', limitsOf_accepts_limit ha, List.getLast?_concat]
      have hroom : o.pendingBackendCommands.length ≠ maxPendingBackendCommands := fun hfull => by
        rw [hrefused.mpr hfull] at hyes
        cases hyes
      rw [if_neg fun hc => hroom hc.1]
      exact ⟨fun m hm => by rw [hlast, ← hm, ho'], hlast⟩

namespace Throttle

variable {t t' : Throttle}

theorem Consistent.of_spares (h : t.Consistent) (hs : Spares t.link.owner t'.link.owner)
    (hlimit : t'.speedLimitBps = t.speedLimitBps)
    (happlied : t'.appliedUsenetLimit = t.appliedUsenetLimit)
    (hlimiter : t'.limiter = t.limiter) : t'.Consistent where
  usenet := by rw [happlied, hlimiter]; exact h.usenet
  unlimited := by rw [happlied, hlimit]; exact h.unlimited
  torrent := by rw [hs.applied, hs.limits]; exact h.torrent

theorem consistent_start (h : t.Start) : t.Consistent where
  usenet n hn := by rw [h.appliedUsenet] at hn; cases hn
  unlimited _ n := by rw [h.appliedUsenet]; simp
  torrent l hl := by rw [h.appliedTorrent] at hl; cases hl

theorem consistent_renew (t : Throttle) (b : Option Nat) : (t.renew b).Consistent where
  usenet _ hn := by cases hn
  unlimited _ _ hn := by cases hn
  torrent _ hl := by cases hl

theorem limiter_rebalance (h : t.Consistent) (w : World) (l : Load) {n : Nat}
    (hn : (allocateDownloadBudget t.speedLimitBps l).1 = some n) :
    (t.rebalanceDownloadBudget w l).limiter = .set (some n) := by
  simp only [rebalanceDownloadBudget, hn]
  split
  · rfl
  · next hsame => exact h.usenet n (by simpa using hsame)

theorem Consistent.rebalance (h : t.Consistent) (w : World) (l : Load) :
    (t.rebalanceDownloadBudget w l).Consistent := by
  have htorrent := (rebalanceDownloadBudget_spec w t.link.owner
    (allocateDownloadBudget t.speedLimitBps l).2 h.torrent).1
  have hnone : t.speedLimitBps = none →
      (allocateDownloadBudget t.speedLimitBps l).1 = none := fun hlimit => by rw [hlimit]; rfl
  simp only [rebalanceDownloadBudget]
  split
  · exact ⟨fun n hn => by rw [Option.some.inj hn],
      fun hlimit n hn => by simp [hnone hlimit] at hn, htorrent⟩
  · exact ⟨h.usenet, h.unlimited, htorrent⟩

theorem Consistent.adopt (h : t.Consistent) (b : Option Nat) :
    (t.adoptAuthority b).Consistent := by
  simp only [adoptAuthority]
  split
  · next hnone =>
    exact ⟨fun n hn => absurd hn (h.unlimited hnone n), fun _ => h.unlimited hnone, h.torrent⟩
  · exact h

theorem Consistent.step (h : t.Consistent) (i : Input) : (t.step i).Consistent := by
  cases i with
  | setSpeedLimit w b l => exact (consistent_renew t b).rebalance w l
  | rebalance w l => exact h.rebalance w l
  | adopt b => exact h.adopt b
  | owner w i hi => exact h.of_spares (spares_step w _ hi) rfl rfl rfl
  | elsewhere jobs persist => exact h.of_spares (.of_quiet (.still rfl rfl rfl) rfl) rfl rfl rfl
  | report fact => exact h.of_spares (.of_quiet (.still rfl rfl rfl) rfl) rfl rfl rfl
  | receive =>
    refine h.of_spares ?_ rfl rfl rfl
    simp only [Throttle.step, Link.step]
    split <;> exact ⟨rfl, rfl⟩

end Throttle

theorem consistent_of_run {t : Throttle} (h : ThrottleRun t) : t.Consistent :=
  h.invariant (fun _ => Throttle.consistent_start) fun _ i _ ht _ hn => hn ▸ ht.step i

theorem inOrder_rebalance {t : Throttle} (h : t.link.InOrder) (w : World) (l : Load) :
    (t.rebalanceDownloadBudget w l).link.InOrder := by
  have hstep := h.step (.owner w (.rebalance (allocateDownloadBudget t.speedLimitBps l).2))
  simp only [Throttle.rebalanceDownloadBudget]
  split <;> exact hstep

theorem link_inOrder_of_run {t : Throttle} (h : ThrottleRun t) : t.link.InOrder := by
  refine h.invariant (fun _ ht => Link.inOrder_start ht.link) ?_
  rintro t i _ ht - rfl
  cases i with
  | setSpeedLimit w b l =>
    have hrenew : (t.renew b).link.InOrder := ht.keeps (.of_quiet (.still rfl rfl rfl)) rfl
    exact inOrder_rebalance hrenew w l
  | rebalance w l => exact inOrder_rebalance ht w l
  | adopt b =>
    simp only [Throttle.step, Throttle.adoptAuthority]
    split <;> exact ht
  | owner w i _ => exact ht.step (.owner w i)
  | elsewhere jobs persist => exact ht.step (.elsewhere jobs persist)
  | report fact => exact ht.step (.report fact)
  | receive => exact ht.step .receive

/-! ### Requests for a limit -/

inductive LimitRequest
  /-- Settings that are saved, or read at the start. -/
  | settings (cfg : Config)
  /-- The native interface. -/
  | speedLimit (bytesPerSec : Option UInt64)
  /-- The compatible interface, in KiB per second. -/
  | rate (kib : Int64)

namespace LimitRequest

/-- The limit the engine is given. -/
def bytesPerSec : LimitRequest → Option UInt64
  | .settings cfg => cfg.speedLimitBps
  | .speedLimit b => b
  | .rate kib =>
    let kib := UInt64.ofNat kib.toInt.toNat
    if kib = 0 then none else some (kib * 1024)

/-- A limit of `k` KiB per second is asked for. -/
def Asks (k : Nat) : LimitRequest → Prop
  | .settings cfg => cfg.queue.speedLimitKib.map UInt64.toNat = some k
  | .speedLimit b => b.map UInt64.toNat = some (k * 1024)
  | .rate kib => kib.toInt = k

/-- Only settings are checked. -/
def Accepted (env : Config.Env) : LimitRequest → Prop
  | .settings cfg => Config.Valid env cfg
  | .speedLimit _ => True
  | .rate _ => True

def limit (r : LimitRequest) : Option Nat := r.bytesPerSec.map UInt64.toNat

theorem limit_eq {r : LimitRequest} {k : Nat} (hk : 1 ≤ k) (h : r.Asks k) :
    r.limit = some (k * 1024 % 2 ^ 64) := by
  have hmul (n : UInt64) (hn : n.toNat = k) : (n * 1024).toNat = k * 1024 % 2 ^ 64 := by
    rw [UInt64.toNat_mul, hn]
    rfl
  cases r with
  | settings cfg =>
    obtain ⟨n, hn, rfl⟩ := Option.map_eq_some_iff.mp h
    simp only [limit, bytesPerSec, Config.speedLimitBps, hn, Option.map_some, hmul n rfl]
  | speedLimit b =>
    obtain ⟨n, rfl, hn⟩ := Option.map_eq_some_iff.mp h
    have hlt := n.toNat_lt
    simp only [limit, bytesPerSec, Option.map_some, hn]
    rw [Nat.mod_eq_of_lt (by omega)]
  | rate kib =>
    have hkib : kib.toInt = k := h
    have hlt := kib.toInt_lt
    have hcast : (UInt64.ofNat kib.toInt.toNat).toNat = k := by
      rw [hkib, Int.toNat_natCast, UInt64.toNat_ofNat_of_lt']
      have : UInt64.size = 2 ^ 64 := rfl
      omega
    have hne : UInt64.ofNat kib.toInt.toNat ≠ 0 := fun hzero => by
      rw [hzero, UInt64.toNat_zero] at hcast
      omega
    simp only [limit, bytesPerSec, if_neg hne, Option.map_some, hmul _ hcast]

/-- **The conversion does not wrap below 2⁵⁴.** -/
theorem limit_eq_iff {r : LimitRequest} {k : Nat} (hk : 1 ≤ k) (h : r.Asks k) :
    r.limit = some (k * 1024) ↔ k < 2 ^ 54 := by
  rw [limit_eq hk h, Option.some_inj]
  constructor
  · intro heq
    have := Nat.mod_lt (k * 1024) (y := 2 ^ 64) (by norm_num)
    omega
  · intro hlt
    exact Nat.mod_eq_of_lt (by omega)

end LimitRequest

/-! ### Caps in force -/

/-- What is left to the torrents of `limit`. -/
def torrentShare (limit : Nat) (l : Load) : Nat :=
  let half := limit / 2
  let floor := min sharedDownloadFloorBps half
  if l.usenetActive = false then limit
  else if l.usenetRateBps < half then limit - max l.usenetRateBps floor
  else if l.torrentRateBps < half then max l.torrentRateBps floor
  else limit - half

/-- **The shares of an aggregate** are limits, and they add up to it. -/
theorem allocate_spec {limit : Nat} (hlimit : 2 ≤ limit) (l : Load) :
    let shares := allocateDownloadBudget (some limit) l
    (l.torrentActive = true → shares.2 = some (torrentShare limit l)) ∧
    (l.usenetActive = true →
      shares.1 = some (if l.torrentActive then limit - torrentShare limit l else limit)) ∧
    0 < torrentShare limit l ∧ torrentShare limit l ≤ limit ∧
    (l.usenetActive = true → torrentShare limit l < limit) := by
  obtain ⟨usenet, torrent, ur, tr⟩ := l
  have hfloor : min sharedDownloadFloorBps (limit / 2) ≤ limit / 2 := Nat.min_le_right ..
  have hpos : 0 < min sharedDownloadFloorBps (limit / 2) := by
    rw [Nat.lt_min]
    exact ⟨by decide, by omega⟩
  simp only [allocateDownloadBudget, torrentShare]
  generalize min sharedDownloadFloorBps (limit / 2) = floor at hfloor hpos
  cases usenet with
  | false => cases torrent <;> simp <;> omega
  | true =>
    have hclamp (n : Nat) (hn : n < limit / 2) :
        min (max n floor) (limit / 2) = max n floor ∧ max n floor ≤ limit / 2 ∧ 0 < max n floor :=
      ⟨by omega, by omega, by omega⟩
    cases torrent with
    | false =>
      by_cases hu : ur < limit / 2
      · simp [hu]
        omega
      · by_cases ht : tr < limit / 2
        · simp [hu, ht]
          omega
        · simp [hu, ht]
          omega
    | true =>
      by_cases hu : ur < limit / 2
      · obtain ⟨heq, hle, hp⟩ := hclamp ur hu
        simp only [hu, if_true, heq, Option.some_inj]
        simp
        omega
      · by_cases ht : tr < limit / 2
        · obtain ⟨heq, hle, hp⟩ := hclamp tr ht
          simp only [hu, ht, if_true, if_false, heq, Option.some_inj]
          simp
          omega
        · simp [hu, ht]
          omega

namespace Throttle

/-- Every active backend is limited, and the limits add up to at most `n`. -/
structure Respects (t : Throttle) (n : Nat) (l : Load) : Prop where
  usenet : l.usenetActive = true → ∃ u, t.limiter.get = some u ∧ u ≤ n
  torrent : l.torrentActive = true → ∃ c, t.torrentCap = some c ∧ c ≤ n
  sum : l.usenetActive = true → l.torrentActive = true →
    ∃ u c, t.limiter.get = some u ∧ t.torrentCap = some c ∧ u + c ≤ n

/-- The adapter can represent the share of the torrents and is told; or the queue is full, and
what it was told before is no more. -/
def GetsThrough (t : Throttle) (n : Nat) (l : Load) : Prop :=
  l.torrentActive = true →
    if t.link.owner.pendingBackendCommands.length = maxPendingBackendCommands ∧
      t.link.owner.appliedTorrentLimit ≠ some (some (torrentShare n l)) then
      ∃ c, t.torrentCap = some c ∧ c ≤ torrentShare n l
    else torrentShare n l < 2 ^ 32

theorem rebalance_respects_iff {t : Throttle} (h : t.Consistent) {n : Nat} (hn : 2 ≤ n)
    (hlimit : t.speedLimitBps = some n) (w : World) (l : Load) :
    (t.rebalanceDownloadBudget w l).Respects n l ↔ t.GetsThrough n l := by
  obtain ⟨htorrent, husenet, hpos, hle, hlt⟩ := allocate_spec hn l
  have hlimiter : ∀ u, 0 < u → (allocateDownloadBudget (some n) l).1 = some u →
      (t.rebalanceDownloadBudget w l).limiter.get = some u := fun u hu hshare => by
    rw [limiter_rebalance h w l (by rw [hlimit]; exact hshare), RateLimiter.get_set hu]
  have hcap : l.torrentActive = true → (t.rebalanceDownloadBudget w l).torrentCap =
      if t.link.owner.pendingBackendCommands.length = maxPendingBackendCommands ∧
        t.link.owner.appliedTorrentLimit ≠ some (some (torrentShare n l)) then t.torrentCap
      else rateLimit (some (torrentShare n l)) := fun hactive => by
    have hspec := (rebalanceDownloadBudget_spec w t.link.owner
      (allocateDownloadBudget t.speedLimitBps l).2 h.torrent).2
    rw [hlimit, htorrent hactive] at hspec
    have howner : (t.rebalanceDownloadBudget w l).link.owner =
        t.link.owner.rebalanceDownloadBudget w (some (torrentShare n l)) := by
      simp only [rebalanceDownloadBudget, hlimit, htorrent hactive]
      split <;> rfl
    simp only [torrentCap, howner, hspec]
    split <;> rfl
  cases hactive : l.torrentActive with
  | false =>
    refine ⟨fun _ hc => absurd hc (by simp [hactive]), fun _ => ⟨fun hu => ?_, ?_, ?_⟩⟩
    · refine ⟨n, hlimiter n (by omega) ?_, Nat.le_refl n⟩
      simpa [hactive] using husenet hu
    · intro hc
      simp [hactive] at hc
    · intro _ hc
      simp [hactive] at hc
  | true =>
    have hu : l.usenetActive = true → (t.rebalanceDownloadBudget w l).limiter.get =
        some (n - torrentShare n l) := fun hu => by
      have hshare := husenet hu
      rw [hactive, if_pos rfl] at hshare
      exact hlimiter _ (by have := hlt hu; omega) hshare
    -- the caps respect the limit as soon as that of the torrents is within their share
    have hwithin : (t.rebalanceDownloadBudget w l).Respects n l ↔
        ∃ c, (t.rebalanceDownloadBudget w l).torrentCap = some c ∧ c ≤ torrentShare n l := by
      constructor
      · intro hr
        cases husen : l.usenetActive with
        | false =>
          obtain ⟨c, hc, hcle⟩ := hr.torrent hactive
          exact ⟨c, hc, by simpa [torrentShare, husen] using hcle⟩
        | true =>
          obtain ⟨u, c, hu', hc, hsum⟩ := hr.sum husen hactive
          rw [hu husen, Option.some_inj] at hu'
          exact ⟨c, hc, by omega⟩
      · rintro ⟨c, hc, hcle⟩
        exact ⟨fun husen => ⟨_, hu husen, by omega⟩, fun _ => ⟨c, hc, by omega⟩,
          fun husen _ => ⟨_, c, hu husen, hc, by omega⟩⟩
    rw [hwithin, hcap hactive, GetsThrough, forall_prop_of_true hactive]
    split
    · rfl
    · rw [rateLimit_some hpos]
      constructor
      · rintro ⟨c, hc, -⟩
        by_contra hlarge
        rw [if_neg hlarge] at hc
        cases hc
      · intro hsmall
        exact ⟨_, if_pos hsmall, Nat.le_refl _⟩

end Throttle

theorem torrentShare_of_settings {env : Config.Env} {cfg : Config} (hvalid : Config.Valid env cfg)
    (henabled : cfg.torrent.enabled = true) {k : Nat} (hk : 1 ≤ k)
    (hask : (LimitRequest.settings cfg).Asks k) (l : Load) :
    k < 2 ^ 54 ∧ torrentShare (k * 1024) l < 2 ^ 32 := by
  obtain ⟨n, hn, rfl⟩ := Option.map_eq_some_iff.mp hask
  have hle := hvalid.speedLimit henabled hn
  have hmax : Config.rqbitMaxKib = 4194303 := by decide
  have htwo : 2 ≤ n.toNat * 1024 := by omega
  obtain ⟨-, -, -, hshare, -⟩ := allocate_spec htwo l
  exact ⟨by omega, by omega⟩

/-- **A limit stays a limit** exactly if it does not wrap and the torrents' share gets through:
when it is set, and at every tick while it stands. -/
theorem limit_respected_iff {env : Config.Env} {t : Throttle} (ht : ThrottleRun t)
    {r : LimitRequest} (hr : r.Accepted env) {k : Nat} (hk : 1 ≤ k) (hask : r.Asks k)
    (w : World) (l : Load) :
    (r.limit = some (k * 1024) ∧ (t.setSpeedLimit w r.limit l).Respects (k * 1024) l ↔
      k < 2 ^ 54 ∧ (t.renew r.limit).GetsThrough (k * 1024) l) ∧
    (t.speedLimitBps = r.limit →
      (r.limit = some (k * 1024) ∧ (t.rebalanceDownloadBudget w l).Respects (k * 1024) l ↔
        k < 2 ^ 54 ∧ t.GetsThrough (k * 1024) l)) ∧
    (∀ cfg, r = .settings cfg → cfg.torrent.enabled = true →
      k < 2 ^ 54 ∧ torrentShare (k * 1024) l < 2 ^ 32) := by
  have hwrap := LimitRequest.limit_eq_iff hk hask
  have hrebalance (t : Throttle) (hc : t.Consistent) (hlimit : t.speedLimitBps = r.limit) :
      r.limit = some (k * 1024) ∧ (t.rebalanceDownloadBudget w l).Respects (k * 1024) l ↔
        k < 2 ^ 54 ∧ t.GetsThrough (k * 1024) l := by
    rw [hwrap]
    refine and_congr_right fun hlt => ?_
    exact Throttle.rebalance_respects_iff hc (by omega) (hlimit.trans (hwrap.mpr hlt)) w l
  refine ⟨hrebalance _ (Throttle.consistent_renew t _) rfl,
    hrebalance t (consistent_of_run ht), ?_⟩
  rintro cfg rfl henabled
  exact torrentShare_of_settings hr henabled hk hask l

def freshThrottle : Throttle := ⟨⟨newOwner [], []⟩, none, none, .set none⟩

theorem freshThrottle_run : ThrottleRun freshThrottle := .start ⟨⟨rfl, rfl, rfl, rfl⟩, rfl, rfl, rfl⟩

def noEnv : Config.Env := ⟨none, fun _ => none⟩

def sharedLoad : Load := ⟨true, true, 2000000, 0⟩

theorem limit_respected_shared :
    (freshThrottle.setSpeedLimit (fairWorld 0) (LimitRequest.rate 2048).limit sharedLoad).Respects
      (2048 * 1024) sharedLoad := by
  have haccepted : (LimitRequest.rate 2048).Accepted noEnv := trivial
  have hasks : (LimitRequest.rate 2048).Asks 2048 := show (2048 : Int64).toInt = 2048 by decide
  obtain ⟨hset, -, -⟩ := limit_respected_iff freshThrottle_run haccepted (by decide) hasks
    (fairWorld 0) sharedLoad
  refine (hset.mpr ⟨by decide, fun _ => ?_⟩).2
  rw [if_neg (by decide)]
  decide

/-- A rate of 2⁵⁴ KiB/s is no limit at all, and neither is one of 8 GiB/s for the torrents. -/
theorem limit_becomes_unlimited :
    ThrottleRun freshThrottle ∧
    (LimitRequest.Asks (2 ^ 54) (.rate (2 ^ 54)) ∧
      ¬(freshThrottle.setSpeedLimit (fairWorld 0) (LimitRequest.rate (2 ^ 54)).limit
        ⟨true, false, 0, 0⟩).Respects (2 ^ 54 * 1024) ⟨true, false, 0, 0⟩) ∧
    LimitRequest.Asks 8388608 (.speedLimit (some (2 ^ 33))) ∧
      ¬(freshThrottle.setSpeedLimit (fairWorld 0) (LimitRequest.speedLimit (some (2 ^ 33))).limit
        ⟨false, true, 0, 0⟩).Respects (8388608 * 1024) ⟨false, true, 0, 0⟩ := by
  refine ⟨freshThrottle_run, ⟨show (2 ^ 54 : Int64).toInt = 2 ^ 54 by decide +kernel, fun h => ?_⟩,
    show some (2 ^ 33 : UInt64).toNat = some (8388608 * 1024) by decide +kernel, fun h => ?_⟩
  · have hlimiter : (freshThrottle.setSpeedLimit (fairWorld 0)
        (LimitRequest.rate (2 ^ 54)).limit ⟨true, false, 0, 0⟩).limiter.get = none := by decide +kernel
    obtain ⟨u, hu, -⟩ := h.usenet rfl
    rw [hlimiter] at hu
    cases hu
  · have hcap : (freshThrottle.setSpeedLimit (fairWorld 0)
        (LimitRequest.speedLimit (some (2 ^ 33))).limit ⟨false, true, 0, 0⟩).torrentCap = none := by
      decide +kernel
    obtain ⟨c, hc, -⟩ := h.torrent rfl
    rw [hcap] at hc
    cases hc

end Nzbd.Torrent
