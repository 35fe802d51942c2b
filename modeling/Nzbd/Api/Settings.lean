import Nzbd.Config.Diff
import Nzbd.Config.Mask
import Nzbd.Engine.Queue
import Nzbd.Torrent.Throttle

/-!
# Saving the settings

`putConfig` restores the masked secrets, validates, writes the file, and then brings the
running engine to what it can take over without a restart.  The engine was spawned from the
configuration of the last start (`boot`): it has a server for every entry of that list and as
many connections for it as the entry says.

* `setServerConnectionCaps` is the owner's half: a cap is taken for a server that was spawned,
  up to the connections that were.  `publishConnBudgets` is what the connection tasks see; a
  server that is not in it has an allowance of zero.
* `applied_iff`: **when each live name takes effect**.  The caps are keyed by the position in
  the list and the servers by the position plus one, so an entry's cap goes to the server of
  the entry before it.
-/

namespace Nzbd.Api

open Config
open Torrent (World Load Throttle Owner BackendCommand)

/-! ### The engine -/

structure Running where
  /-- What the engine was spawned from. -/
  boot : Config
  clusterBudgets : Nat → Option Nat
  userConnCaps : Nat → Option Nat
  maxActiveDownloads : Nat
  throttle : Throttle

namespace Running

def servers (e : Running) : List EngineServer := serverDefs e.boot

def clampConns (want ceiling : Nat) : Nat := max 1 (min want ceiling)

def ceiling (e : Running) (id : Nat) : Nat :=
  ((e.servers.find? (·.id = id)).map (·.maxConnections)).getD 0

/-- The caps that are taken, and the engine with them. -/
def setServerConnectionCaps (e : Running) (caps : Nat → Option Nat) :
    (Nat → Option Nat) × Running :=
  let applied := fun id => (caps id).bind fun want =>
    if e.ceiling id = 0 then none else some (clampConns want (e.ceiling id))
  (applied, { e with userConnCaps := applied })

/-- What the connection tasks see: the stricter of what the cluster and the operator allow. -/
def publishConnBudgets (e : Running) (id : Nat) : Option Nat :=
  match e.userConnCaps id, e.clusterBudgets id with
  | some want, some cluster => some (min cluster want)
  | some want, none => some want
  | none, cluster => cluster

def allowance (e : Running) (id : Nat) : Nat := (e.publishConnBudgets id).getD 0

def setSpeedLimit (e : Running) (w : World) (l : Load) (bytesPerSec : Option UInt64) : Running :=
  { e with throttle := e.throttle.setSpeedLimit w (bytesPerSec.map UInt64.toNat) l }

def setMaxActiveDownloads (e : Running) (n : Nat) : Running :=
  { e with maxActiveDownloads := clampActiveDownloads n }

def setTorrentUploadLimit (e : Running) (w : World) (bytesPerSec : Option UInt64) : Running :=
  let limit := Torrent.Input.setUploadLimit (bytesPerSec.map UInt64.toNat)
  { e with throttle := { e.throttle with link := e.throttle.link.step (.owner w limit) } }

end Running

/-! ### The request -/

structure Handle where
  /-- Where the file is, if there is one. -/
  configPath : Option Text
  current : Config
  pendingRestart : Finset SectionName
  /-- What the file says. -/
  file : Config
  deriving DecidableEq

/-- What becomes of the new file. -/
inductive Save
  | ok
  | tomlError (e : Text)
  | createError (parent e : Text)
  | writeError (e : Text)

inductive Reply
  | error (status : Nat) (message : Text)
  | saved (appliedLive : List LiveName) (restartRequired : Finset SectionName)
      (connectionNotes : List Text)
  deriving DecidableEq

def connNote (applied : Nat → Option Nat) (i : Nat) (s : ServerConfig) : Option Text :=
  (applied i).bind fun got =>
    if got < s.connections then
      some ((if s.name = [] then s.host else s.name) ++ text ": using " ++ Nat.toDigits 10 got ++
        text " of " ++ Nat.toDigits 10 s.connections ++ text " until restart")
    else none

/-- The upload limit as the engine takes it. -/
def uploadLimitBps (new : Config) : Option UInt64 :=
  if 0 < new.torrent.uploadLimitKib then some (new.torrent.uploadLimitKib * 1024) else none

/-- The caps by the place in the list. -/
def connCaps (new : Config) (id : Nat) : Option Nat := new.servers[id]?.map (·.connections)

/-- Live-apply what the engine can absorb without a restart. -/
def applyLive (w : World) (l : Load) (live : List LiveName) (new : Config) (e : Running) :
    Running × List Text :=
  let e := if .speedLimit ∈ live then e.setSpeedLimit w l new.speedLimitBps else e
  let e := if .maxActiveDownloads ∈ live then e.setMaxActiveDownloads new.queue.maxActiveDownloads
    else e
  let e := if .torrentUploadLimit ∈ live then e.setTorrentUploadLimit w (uploadLimitBps new) else e
  if .connections ∈ live then
    let (applied, e) := e.setServerConnectionCaps (connCaps new)
    (e, (new.servers.mapIdx (connNote applied)).reduceOption)
  else (e, [])

/-- The error of a mask that nothing is known for. -/
def unresolvedError (unresolved : List Text) : Text :=
  (text ", ").intercalate unresolved ++ text " still reads " ++ secretMask ++
    text (" and there is no saved value to restore it from (a renamed or newly added server " ++
      "has no previous secret). Type the real value in before saving — saving as-is would " ++
      "delete it.")

/-- `body` is what the parser made of the request. -/
def putConfig (env : Env) (setup : Option Handle) (body : Except Text Config) (save : Save)
    (w : World) (l : Load) (e : Running) : Option Handle × Running × Reply :=
  match setup with
  | none => (setup, e, .error 404 (text "no config handle"))
  | some h =>
    match h.configPath with
    | none =>
      (setup, e, .error 409 (text "daemon is running without --config; there is no file to edit"))
    | some path =>
      match body with
      | .error err => (setup, e, .error 422 err)
      | .ok sent =>
        let (new, unresolved) := mergeMaskedSecrets sent h.current
        if unresolved ≠ [] then (setup, e, .error 422 (unresolvedError unresolved))
        else
          match validate env new with
          | .error err => (setup, e, .error 422 err)
          | .ok () =>
            match save with
            | .tomlError err => (setup, e, .error 500 err)
            | .createError parent err =>
              (setup, e, .error 500 (text "create " ++ parent ++ text ": " ++ err))
            | .writeError err =>
              (setup, e, .error 500 (text "write " ++ path ++ text ": " ++ err ++ text
                (" — config location not writable; copy your edit into the file by hand")))
            | .ok =>
              let (live, restart) := diffSections h.current new
              let (e, notes) := applyLive w l live new e
              let pending := h.pendingRestart ∪ restart.toFinset
              (some ⟨h.configPath, new, pending, new⟩, e, .saved live pending notes)

/-- **A request that is saved**, read backwards. -/
theorem putConfig_saved {env : Env} {setup : Option Handle} {body : Except Text Config}
    {save : Save} {w : World} {l : Load} {e e' : Running} {setup' : Option Handle}
    {live : List LiveName} {pending : Finset SectionName} {notes : List Text}
    (hput : putConfig env setup body save w l e = (setup', e', .saved live pending notes)) :
    ∃ h new, setup = some h ∧ Valid env new ∧ setup' = some ⟨h.configPath, new, pending, new⟩ ∧
      live = (diffSections h.current new).1 ∧
      pending = h.pendingRestart ∪ (diffSections h.current new).2.toFinset ∧
      (e', notes) = applyLive w l live new e := by
  simp only [putConfig] at hput
  split at hput
  · cases hput
  · next h =>
    split at hput
    · cases hput
    · split at hput
      · cases hput
      · next sent =>
        split_ifs at hput with hunresolved
        · cases hput
        · split at hput
          · cases hput
          · next hvalid =>
            split at hput
            · cases hput
            · cases hput
            · cases hput
            · simp only [Prod.mk.injEq, Reply.saved.injEq] at hput
              obtain ⟨rfl, rfl, rfl, rfl, rfl⟩ := hput
              exact ⟨h, _, rfl, hvalid, rfl, rfl, rfl, rfl⟩

/-! ### What takes effect -/

def uploadsOf (log : List Torrent.Event) : List (Option Nat) :=
  (Torrent.acceptedOf log).filterMap fun
    | .setUploadLimit l => some l
    | _ => none

/-- The limit on uploads the adapter has been told, in its reading. -/
def uploadCap (t : Throttle) : Option Nat :=
  Torrent.rateLimit ((uploadsOf t.link.owner.log).getLast?.getD none)

/-- The upload limit the file asks for, in bytes; `0` asks for none. -/
def askedUpload (new : Config) : Option Nat :=
  if new.torrent.uploadLimitKib.toNat = 0 then none
  else some (new.torrent.uploadLimitKib.toNat * 1024)

/-- The engine is at the value the new file asks for. -/
def Applied (new : Config) (e : Running) : LiveName → Prop
  | .connections => ∀ (i : Nat) s d, new.servers[i]? = some s → (serverDefs e.boot)[i]? = some d →
      e.userConnCaps d.id = some (Running.clampConns s.connections d.maxConnections)
  | .speedLimit => e.throttle.speedLimitBps = new.queue.speedLimitKib.map (·.toNat * 1024)
  | .maxActiveDownloads =>
      e.maxActiveDownloads = clampActiveDownloads new.queue.maxActiveDownloads
  | .torrentUploadLimit => uploadCap e.throttle = askedUpload new

/-- What it takes for a live name to be applied.  Of a cap: the next entry of the list asks for
the same, as far as this server can be given it. -/
def CanApply (old new : Config) (e : Running) : LiveName → Prop
  | .connections => ∀ (i : Nat) s b, new.servers[i]? = some s → e.boot.servers[i]? = some b →
      ∃ next, new.servers[i + 1]? = some next ∧
        Running.clampConns next.connections b.connections =
          Running.clampConns s.connections b.connections
  | .speedLimit => ∀ k ∈ new.queue.speedLimitKib, k.toNat < 2 ^ 54
  | .maxActiveDownloads => True
  | .torrentUploadLimit =>
      e.throttle.link.owner.pendingBackendCommands.length +
          (if old.queue.speedLimitKib = new.queue.speedLimitKib then 0 else 1) <
        Torrent.maxPendingBackendCommands ∨
      uploadCap e.throttle = askedUpload new

/-! ### Connections -/

variable {old new : Config} {e : Running}

@[simp] theorem getElem?_serverDefs (cfg : Config) (i : Nat) :
    (serverDefs cfg)[i]? = cfg.servers[i]?.map (serverDef i) := by simp [serverDefs]

theorem find_serverDefs (cfg : Config) (i : Nat) :
    (serverDefs cfg).find? (·.id = i + 1) = cfg.servers[i]?.map (serverDef i) := by
  rw [← getElem?_serverDefs]
  have hid (j : Nat) (hj : j < (serverDefs cfg).length) : (serverDefs cfg)[j].id = j + 1 := by
    simp [serverDefs, serverDef]
  by_cases hi : i < (serverDefs cfg).length
  · rw [List.getElem?_eq_getElem hi, List.find?_eq_some_iff_getElem]
    refine ⟨by simp [hid i hi], i, hi, rfl, fun j hj => ?_⟩
    have hne := hid j (by omega)
    simp only [hne, Bool.not_eq_true', decide_eq_false_iff_not]
    omega
  · rw [List.getElem?_eq_none (by omega), List.find?_eq_none]
    intro d hd
    obtain ⟨j, hj, rfl⟩ := List.getElem_of_mem hd
    rw [hid j hj, decide_eq_true_eq]
    omega

theorem ceiling_succ (e : Running) (i : Nat) :
    e.ceiling (i + 1) = (e.boot.servers[i]?.map (·.connections)).getD 0 := by
  rw [Running.ceiling, Running.servers, find_serverDefs]
  cases e.boot.servers[i]? <;> rfl

theorem userConnCaps_setServerConnectionCaps (e : Running) {i : Nat} {b : ServerConfig}
    (hb : e.boot.servers[i]? = some b) (hconn : b.connections ≠ 0) :
    (e.setServerConnectionCaps (connCaps new)).2.userConnCaps (i + 1) =
      new.servers[i + 1]?.map fun s => Running.clampConns s.connections b.connections := by
  have hceiling : e.ceiling (i + 1) = b.connections := by simp [ceiling_succ, hb]
  simp only [Running.setServerConnectionCaps, connCaps, hceiling, if_neg hconn]
  cases new.servers[i + 1]? <;> rfl

theorem applied_connections_iff (hboot : Config.Sound e.boot) {e' : Running}
    (hcaps : e'.userConnCaps = (e.setServerConnectionCaps (connCaps new)).2.userConnCaps)
    (hsame : e'.boot = e.boot) :
    Applied new e' .connections ↔ CanApply old new e .connections := by
  have hcap (i : Nat) (b : ServerConfig) (hb : e.boot.servers[i]? = some b) :
      e'.userConnCaps (i + 1) =
        new.servers[i + 1]?.map fun s => Running.clampConns s.connections b.connections := by
    rw [hcaps]
    exact userConnCaps_setServerConnectionCaps e hb
      (hboot.connections b (List.mem_of_getElem? hb))
  simp only [Applied, CanApply, hsame]
  constructor
  · intro h i s b hs hb
    have hi := h i s (serverDef i b) hs (by simp [hb])
    have hget : new.servers[i + 1]?.map
        (fun s => Running.clampConns s.connections b.connections) =
          some (Running.clampConns s.connections b.connections) := (hcap i b hb).symm.trans hi
    exact Option.map_eq_some_iff.mp hget
  · intro h i s d hs hd
    rw [getElem?_serverDefs] at hd
    obtain ⟨b, hb, rfl⟩ := Option.map_eq_some_iff.mp hd
    obtain ⟨next, hnext, hclamp⟩ := h i s b hs hb
    have hi := hcap i b hb
    rw [hnext, Option.map_some, hclamp] at hi
    exact hi

/-! ### The queue of commands -/

section Commands

variable {w : World} {o : Owner} {t : Throttle} (w : World)

theorem room_enqueueBackendCommand (o : Owner) (c : BackendCommand) :
    (o.enqueueBackendCommand w c).2.pendingBackendCommands.length <
        Torrent.maxPendingBackendCommands ↔
      o.pendingBackendCommands.length + 1 < Torrent.maxPendingBackendCommands := by
  have hmax : Torrent.maxPendingBackendCommands = 64 := rfl
  simp only [Owner.enqueueBackendCommand]
  split
  · split
    · next hfull =>
      simp only [hfull, hmax]
      omega
    · simp [Owner.retain, Owner.note]
  · next hnil =>
    rw [ne_eq, not_not] at hnil
    cases htakes : w.takes o.log.length with
    | true => simp [Torrent.tryCommand_takes htakes, Owner.note, hnil, hmax]
    | false =>
      rw [Torrent.tryCommand_full htakes, if_neg Bool.false_ne_true,
        if_neg (by simp [Owner.note, hnil, hmax])]
      simp [Owner.retain, Owner.note, hnil, hmax]

theorem uploadsOf_accepts {o' : Owner} {c : BackendCommand} (h : Torrent.Accepts o o' c) :
    uploadsOf o'.log = uploadsOf o.log ++ [c].filterMap fun
      | .setUploadLimit l => some l
      | _ => none := by
  rw [uploadsOf, h.accepted, List.filterMap_append]
  rfl

theorem uploadsOf_rebalance (o : Owner) (limit : Option Nat) :
    uploadsOf (o.rebalanceDownloadBudget w limit).log = uploadsOf o.log := by
  have henqueue : uploadsOf (o.enqueueBackendCommand w (.setDownloadLimit limit)).2.log =
      uploadsOf o.log := by
    rcases Torrent.enqueueBackendCommand_spec w o (.setDownloadLimit limit) with ⟨-, hq⟩ | ⟨-, ha⟩
    · rw [uploadsOf, uploadsOf, hq.accepted]
    · simpa using uploadsOf_accepts ha
  simp only [Owner.rebalanceDownloadBudget]
  split
  · rfl
  · split <;> exact henqueue

theorem link_setSpeedLimit (t : Throttle) (b : Option Nat) (l : Load) :
    (t.setSpeedLimit w b l).link = { t.link with
      owner := t.link.owner.setSpeedLimit w (Torrent.allocateDownloadBudget b l).2 } := rfl

theorem uploadCap_setSpeedLimit (t : Throttle) (b : Option Nat) (l : Load) :
    uploadCap (t.setSpeedLimit w b l) = uploadCap t := by
  rw [uploadCap, uploadCap, link_setSpeedLimit]
  exact congrArg (fun us => Torrent.rateLimit (us.getLast?.getD none)) (uploadsOf_rebalance w _ _)

theorem room_setSpeedLimit (t : Throttle) (b : Option Nat) (l : Load) :
    (t.setSpeedLimit w b l).link.owner.pendingBackendCommands.length <
        Torrent.maxPendingBackendCommands ↔
      t.link.owner.pendingBackendCommands.length + 1 < Torrent.maxPendingBackendCommands := by
  rw [link_setSpeedLimit]
  have hroom := room_enqueueBackendCommand w { t.link.owner with appliedTorrentLimit := none }
    (.setDownloadLimit (Torrent.allocateDownloadBudget b l).2)
  simp only [Owner.setSpeedLimit, Owner.rebalanceDownloadBudget]
  rw [if_neg (by simp)]
  split <;> exact hroom

theorem uploadCap_setUploadLimit (b : Option Nat)
    (hbound : t.link.owner.pendingBackendCommands.length ≤ Torrent.maxPendingBackendCommands) :
    uploadCap { t with link := t.link.step (.owner w (.setUploadLimit b)) } =
      if t.link.owner.pendingBackendCommands.length < Torrent.maxPendingBackendCommands then
        Torrent.rateLimit b
      else uploadCap t := by
  have hrefused := Torrent.enqueueBackendCommand_refused w t.link.owner (.setUploadLimit b)
  have hlog : uploadCap { t with link := t.link.step (.owner w (.setUploadLimit b)) } =
      Torrent.rateLimit ((uploadsOf (t.link.owner.enqueueBackendCommand w
        (.setUploadLimit b)).2.log).getLast?.getD none) := rfl
  rw [hlog]
  rcases Torrent.enqueueBackendCommand_spec w t.link.owner (.setUploadLimit b) with
    ⟨hno, hq⟩ | ⟨hyes, ha⟩
  · have hfull := hrefused.mp hno
    rw [if_neg (by omega), uploadsOf, hq.accepted]
    rfl
  · have hroom : t.link.owner.pendingBackendCommands.length ≠
        Torrent.maxPendingBackendCommands := fun hfull => by
      rw [hrefused.mpr hfull] at hyes
      cases hyes
    rw [if_pos (by omega), uploadsOf_accepts ha]
    simp

end Commands

/-! ### All live names -/

section Live

variable {env : Env} {w : World} {l : Load} {live : List LiveName}

theorem boot_applyLive : (applyLive w l live new e).1.boot = e.boot := by
  simp only [applyLive]
  split_ifs <;> rfl

theorem speedLimitBps_applyLive (h : .speedLimit ∈ live) :
    (applyLive w l live new e).1.throttle.speedLimitBps =
      new.speedLimitBps.map UInt64.toNat := by
  simp only [applyLive, if_pos h]
  split_ifs <;> rfl

theorem maxActiveDownloads_applyLive (h : .maxActiveDownloads ∈ live) :
    (applyLive w l live new e).1.maxActiveDownloads =
      clampActiveDownloads new.queue.maxActiveDownloads := by
  simp only [applyLive, if_pos h]
  split_ifs <;> rfl

theorem userConnCaps_applyLive (h : .connections ∈ live) :
    (applyLive w l live new e).1.userConnCaps =
      (e.setServerConnectionCaps (connCaps new)).2.userConnCaps := by
  simp only [applyLive, if_pos h]
  split_ifs <;> rfl

theorem uploadCap_applyLive (h : .torrentUploadLimit ∈ live)
    (hbound : e.throttle.link.InOrder) :
    uploadCap (applyLive w l live new e).1.throttle =
      if e.throttle.link.owner.pendingBackendCommands.length +
          (if .speedLimit ∈ live then 1 else 0) < Torrent.maxPendingBackendCommands then
        Torrent.rateLimit ((uploadLimitBps new).map UInt64.toNat)
      else uploadCap e.throttle := by
  have hlast : (applyLive w l live new e).1.throttle =
      ((if .speedLimit ∈ live then e.setSpeedLimit w l new.speedLimitBps else e).setTorrentUploadLimit
        w (uploadLimitBps new)).throttle := by
    simp only [applyLive, if_pos h]
    split_ifs <;> rfl
  rw [hlast]
  by_cases hspeed : LiveName.speedLimit ∈ live
  · simp only [if_pos hspeed, Running.setTorrentUploadLimit, Running.setSpeedLimit]
    have hstep : (e.throttle.setSpeedLimit w (new.speedLimitBps.map UInt64.toNat) l).link.InOrder :=
      hbound.step (.owner w (.setSpeedLimit _))
    rw [uploadCap_setUploadLimit w _ hstep.bounded, uploadCap_setSpeedLimit]
    exact if_congr (room_setSpeedLimit _ _ _ _) rfl rfl
  · simp only [if_neg hspeed, Nat.add_zero]
    exact uploadCap_setUploadLimit w _ hbound.bounded

theorem applied_speedLimit_iff (h : .speedLimit ∈ live) :
    Applied new (applyLive w l live new e).1 .speedLimit ↔ CanApply old new e .speedLimit := by
  simp only [Applied, CanApply, speedLimitBps_applyLive h, Config.speedLimitBps]
  cases hk : new.queue.speedLimitKib with
  | none => simp
  | some k =>
    have hmul : (k * 1024).toNat = k.toNat * 1024 % 2 ^ 64 := by
      rw [UInt64.toNat_mul]
      rfl
    simp only [Option.map_some, hmul, Option.some_inj, Option.mem_def, forall_eq']
    constructor
    · intro heq
      have := Nat.mod_lt (k.toNat * 1024) (y := 2 ^ 64) (by norm_num)
      omega
    · intro hlt
      exact Nat.mod_eq_of_lt (by omega)

theorem rateLimit_uploadLimitBps (hnew : Config.Sound new) :
    Torrent.rateLimit ((uploadLimitBps new).map UInt64.toNat) = askedUpload new := by
  have hle := hnew.uploadLimit
  have hmax : rqbitMaxKib = 4194303 := by decide
  simp only [uploadLimitBps, askedUpload]
  generalize new.torrent.uploadLimitKib = k at hle
  have hmul : (k * 1024).toNat = k.toNat * 1024 := by
    rw [UInt64.toNat_mul, show (1024 : UInt64).toNat = 1024 from rfl]
    exact Nat.mod_eq_of_lt (by omega)
  have hpos : 0 < k ↔ k.toNat ≠ 0 := by
    rw [UInt64.lt_iff_toNat_lt, UInt64.toNat_zero]
    omega
  by_cases hk : k.toNat = 0
  · rw [if_pos hk, if_neg (by rw [hpos]; omega)]
    rfl
  · rw [if_neg hk, if_pos (hpos.mpr hk), Option.map_some, hmul,
      Torrent.rateLimit_some (by omega), if_pos (by omega)]

theorem applied_torrentUploadLimit_iff (hnew : Config.Sound new) (h : .torrentUploadLimit ∈ live)
    (hspeed : .speedLimit ∈ live ↔ old.queue.speedLimitKib ≠ new.queue.speedLimitKib)
    (hbound : e.throttle.link.InOrder) :
    Applied new (applyLive w l live new e).1 .torrentUploadLimit ↔
      CanApply old new e .torrentUploadLimit := by
  have hcount : (if LiveName.speedLimit ∈ live then 1 else 0) =
      if old.queue.speedLimitKib = new.queue.speedLimitKib then 0 else 1 := by
    by_cases hsame : old.queue.speedLimitKib = new.queue.speedLimitKib
    · rw [if_pos hsame, if_neg (by simp [hspeed, hsame])]
    · rw [if_neg hsame, if_pos (hspeed.mpr hsame)]
  simp only [Applied, CanApply, uploadCap_applyLive h hbound, rateLimit_uploadLimitBps hnew, hcount]
  by_cases hroom : e.throttle.link.owner.pendingBackendCommands.length +
      (if old.queue.speedLimitKib = new.queue.speedLimitKib then 0 else 1) <
        Torrent.maxPendingBackendCommands
  · rw [if_pos hroom]
    exact ⟨fun _ => .inl hroom, fun _ => rfl⟩
  · rw [if_neg hroom]
    exact ⟨.inr, fun hc => hc.resolve_left hroom⟩

/-- **When a live name takes effect.** -/
theorem applied_iff (hnew : Config.Sound new) (hboot : Config.Sound e.boot)
    (hrun : Torrent.ThrottleRun e.throttle)
    {n : LiveName} (h : n ∈ (diffSections old new).1) :
    Applied new (applyLive w l (diffSections old new).1 new e).1 n ↔ CanApply old new e n := by
  cases n with
  | connections => exact applied_connections_iff hboot (userConnCaps_applyLive h) boot_applyLive
  | speedLimit => exact applied_speedLimit_iff h
  | maxActiveDownloads => exact iff_of_true (maxActiveDownloads_applyLive h) trivial
  | torrentUploadLimit =>
    exact applied_torrentUploadLimit_iff hnew h (mem_live_iff old new .speedLimit)
      (Torrent.link_inOrder_of_run hrun)

/-- **Announced always, applied under a condition**: what `diffSections` reports, and when a
saved request brings the engine to the values of the new file. -/
theorem announced_and_applied_iff (hold : Valid env old) (hnew : Valid env new) :
    (∀ n, n ∈ (diffSections old new).1 ↔ ¬n.Same old new) ∧
    (∀ s, s ∈ (diffSections old new).2 ↔ ¬s.Same old new) ∧
    (diffSections old new = ([], []) ↔ old = new) ∧
    ∀ h h' body save w l e e' live pending notes, h.current = old → h'.current = new →
      Valid env e.boot → Torrent.ThrottleRun e.throttle →
      putConfig env (some h) body save w l e = (some h', e', .saved live pending notes) →
      ((∀ n ∈ live, Applied new e' n) ↔ ∀ n ∈ live, CanApply old new e n) := by
  refine ⟨mem_live_iff old new, mem_restart_iff hold.sound, diffSections_eq_nil_iff hold.sound, ?_⟩
  rintro h h' body save w l e e' live pending notes rfl rfl hboot hrun hput
  obtain ⟨_, new, hh, -, hh', rfl, -, hlive⟩ := putConfig_saved hput
  obtain rfl := Option.some.inj hh
  obtain rfl := Option.some.inj hh'
  have he' : e' = (applyLive w l (diffSections h.current new).1 new e).1 := congrArg Prod.fst hlive
  rw [he']
  exact forall₂_congr fun n hn => applied_iff hnew.sound hboot.sound hrun hn

end Live

/-! ### One server -/

def oneServer (connections : Nat) : Config :=
  withServers [{ serverAt "a" "a.example" "s1" with connections := connections }]

def startedHandle : Handle := ⟨some (text "nzbd.toml"), oneServer 8, ∅, oneServer 8⟩

def startedEngine : Running := ⟨oneServer 8, fun _ => none, fun _ => none, 1, Torrent.freshThrottle⟩

def save (new : Config) : Option Handle × Running × Reply :=
  putConfig noEnv (some startedHandle) (.ok new) .ok (Torrent.fairWorld 0) ⟨true, false, 0, 0⟩
    startedEngine

def limited : Config :=
  { oneServer 8 with queue := { defaultQueue with speedLimitKib := some 512 } }

theorem save_eq {new : Config} {live : List LiveName} (h : (save new).2.2 = .saved live ∅ [])
    (hhandle : (save new).1 = some ⟨startedHandle.configPath, new, ∅, new⟩) :
    save new = (some ⟨startedHandle.configPath, new, ∅, new⟩, (save new).2.1, .saved live ∅ []) := by
  rw [← h, ← hhandle]

theorem announced_and_applied_limit : Applied limited (save limited).2.1 .speedLimit := by
  have hvalid : Valid noEnv (oneServer 8) ∧ Valid noEnv limited := by decide +kernel
  have hsave : save limited = (some ⟨startedHandle.configPath, limited, ∅, limited⟩,
      (save limited).2.1, .saved [.speedLimit] ∅ []) :=
    save_eq (by decide +kernel) (by decide +kernel)
  obtain ⟨-, -, -, happlied⟩ := announced_and_applied_iff hvalid.1 hvalid.2
  refine (happlied startedHandle _ _ _ _ _ _ _ _ _ _ rfl rfl hvalid.1
    Torrent.freshThrottle_run hsave).mpr (fun n hn => ?_) _ (List.mem_singleton_self _)
  rw [List.mem_singleton.mp hn]
  rintro k ⟨rfl⟩
  decide

/-- **The only server is parked**: its new cap goes to the server before it, which is none. -/
theorem connections_parked :
    Valid noEnv (oneServer 8) ∧ Valid noEnv (oneServer 4) ∧
      Torrent.ThrottleRun startedEngine.throttle ∧
      (save (oneServer 4)).2.2 = .saved [.connections] ∅ [] ∧
      ¬Applied (oneServer 4) (save (oneServer 4)).2.1 .connections ∧
      (save (oneServer 4)).2.1.allowance 1 = 0 := by
  refine ⟨by decide +kernel, by decide +kernel, Torrent.freshThrottle_run, by decide +kernel,
    fun h => ?_, by decide +kernel⟩
  have hcap := h 0 _ _ rfl rfl
  exact absurd hcap (by decide +kernel)

end Nzbd.Api
