import Nzbd.Config.Config

/-!
# Valid configurations

`validate` makes its checks one after the other.  What a valid configuration has that the
rest needs is in `Sound`: no secret is still the placeholder, no server is without a
connection, and every number can be compared.
-/

namespace Nzbd

open Torrent (PathBuf Component)

namespace Config

/-- What the parser of URLs has found. -/
structure Url where
  scheme : Text
  host : Option Text
  port : Option Nat
  username : Text
  password : Option Text
  path : Text
  query : Option Text
  fragment : Option Text

structure Env where
  /-- `HOME`. -/
  home : Option PathBuf
  parseUrl : Text → Option Url

/-- Shown in place of a secret. -/
def secretMask : Text := text "***unchanged***"

def maxStorageRoots : Nat := 64

def expandHome (env : Env) (p : PathBuf) : PathBuf :=
  match env.home, p with
  | some home, .normal name :: rest => if name = text "~" then home ++ rest else p
  | _, _ => p

/-! ### Places -/

structure StorageRoot where
  label : Text
  path : PathBuf

/-- A path has one row, with all its roles. -/
def pushRoot (roots : List StorageRoot) (label : Text) (path : PathBuf) : List StorageRoot :=
  if roots.any (·.path = path) then
    roots.map fun r => if r.path = path then { r with label := r.label ++ text " · " ++ label } else r
  else roots ++ [⟨label, path⟩]

section Places

variable (env : Env) (cfg : Config)

def stateDir : PathBuf :=
  match cfg.paths.queueDir with
  | some d => expandHome env d
  | none => expandHome env cfg.paths.mainDir ++ dir ["queue"]

def destDir : PathBuf := expandHome env cfg.paths.destDir

def torrentDir : PathBuf :=
  match cfg.paths.torrentDir with
  | some d => expandHome env d
  | none => expandHome env cfg.paths.mainDir ++ dir ["torrents"]

def failedDir : PathBuf :=
  match cfg.post.failedDir with
  | some d => expandHome env d
  | none => expandHome env cfg.paths.mainDir ++ dir ["failed"]

/-- A place that is configured or not. -/
def optionalRoot (label : Text) (p : Option PathBuf) : List (Text × PathBuf) :=
  p.toList.map fun p => (label, expandHome env p)

def namedRoots : List (Text × PathBuf) :=
  [(text "state", cfg.stateDir env)] ++
  (if cfg.cluster.enabled then
    cfg.cluster.sharedDir.toList.map fun p =>
      (text "cluster state", expandHome env p ++ dir [".nzbd-cluster"])
  else []) ++
  [(text "downloads", cfg.destDir env), (text "working", expandHome env cfg.paths.mainDir),
    (text "failed", cfg.failedDir env)] ++
  optionalRoot env (text "intermediate") cfg.paths.interDir ++
  optionalRoot env (text "temporary") cfg.paths.tempDir ++
  optionalRoot env (text "watch") cfg.paths.nzbWatchDir ++
  cfg.categories.flatMap (fun c => optionalRoot env (text "category: " ++ c.name) c.destDir) ++
  if cfg.torrent.enabled then
    [(text "torrent payloads", cfg.torrentDir env),
      (text "torrent control", cfg.stateDir env ++ dir ["torrents"])] ++
    optionalRoot env (text "torrent watch") cfg.paths.torrentWatchDir ++
    cfg.categories.flatMap fun c =>
      optionalRoot env (text "torrent category: " ++ c.name) c.torrentDir
  else []

def storageRoots : List StorageRoot :=
  (cfg.namedRoots env).foldl (fun roots r => pushRoot roots r.1 r.2) []

end Places

/-! ### Checks -/

/-- What is wrong, and what is said then. -/
abbrev Check := Bool × Text

def isMask (v : Option Text) : Bool := v = some secretMask

def maskHit (v : Option Text) (field : Text) : Check :=
  (isMask v, field ++ text " is still the placeholder \"" ++ secretMask ++
    text "\" — this config was copied from the settings editor, which masks every secret. The masked text is a display, not a backup: put the real value back (or delete the line to run without one).")

def serverPassword (s : ServerConfig) : Text := text "server '" ++ s.name ++ text "' password"

def secretChecks (cfg : Config) : List Check :=
  cfg.servers.map (fun s => maskHit s.password (serverPassword s)) ++
  [maskHit cfg.api.password (text "[api] password"), maskHit cfg.api.token (text "[api] token"),
    maskHit cfg.cluster.secret (text "[cluster] secret"),
    maskHit cfg.torrent.socksProxyPassword (text "[torrent] socks_proxy_password")]

def serverChecks (s : ServerConfig) : List Check :=
  [(s.host = [], text "server '" ++ s.name ++ text "' has no host"),
    (s.connections = 0, text "server '" ++ s.name ++ text "' has zero connections")]

def feedCheck (f : FeedConfig) : Check :=
  (Utf8.trim f.name = [] || Utf8.trim f.url = [], text "[[feed]] requires name and url")

def rootCheck (env : Env) (cfg : Config) : Check :=
  (maxStorageRoots < (cfg.storageRoots env).length,
    text "configured write-root count " ++ Nat.toDigits 10 (cfg.storageRoots env).length ++
      text " exceeds the safety limit " ++ Nat.toDigits 10 maxStorageRoots)

def peerChecks (c : ClusterConfig) : List Check :=
  if c.controlPeers = [] then []
  else
    [(c.controlPeers.any (fun p => p.id = 0 || Utf8.trim p.raftAddr = [] || Utf8.trim p.apiAddr = []) ||
        ¬(c.controlPeers.map (·.id)).Nodup,
      text "[cluster] control_peers require unique positive ids and both addresses"),
    (!c.controlPeers.any (·.id = c.controlNodeId),
      text "[cluster] control_peers must contain control_node_id")]

def clusterChecks (c : ClusterConfig) : List Check :=
  if c.enabled then
    [((Utf8.trim c.clusterId = [] : Bool), text "[cluster] requires cluster_id"),
      (Utf8.trim c.nodeName = [], text "[cluster] requires node_name"),
      (c.sharedDir.isNone, text "[cluster] requires shared_dir"),
      (Utf8.trim c.advertiseUrl = [], text "[cluster] requires advertise_url"),
      (c.secret.isNone && c.secretFile.isNone, text "[cluster] requires secret or secret_file"),
      (c.controlNodeId = 0, text "[cluster] control_node_id must be greater than zero"),
      (c.downloadWeight = 0 || c.ppWeight = 0,
        text "[cluster] download_weight and pp_weight must be greater than zero")] ++
    peerChecks c
  else []

/-! ### Torrents -/

def isUrlUnreserved (c : Char) : Bool :=
  c.isAlphanum || c = '-' || c = '.' || c = '_' || c = '~'

def proxyOriginChecks (env : Env) (origin : Text) : List Check :=
  [((env.parseUrl origin).isNone, text "[torrent] socks_proxy_url is not valid"),
    (!(env.parseUrl origin).any (fun url => url.scheme = text "socks5" && url.host.isSome &&
        url.port.isSome && url.username = [] && url.password.isNone &&
        (url.path = [] || url.path = text "/") && url.query.isNone && url.fragment.isNone),
      text "[torrent] socks_proxy_url must be a credential-free socks5://host:port origin")]

def proxyChecks (env : Env) (t : TorrentConfig) : List Check :=
  match t.socksProxyUrl, t.socksProxyUsername, t.socksProxyPassword with
  | none, none, none => []
  | some origin, none, none => proxyOriginChecks env origin
  | some origin, some username, some password =>
    proxyOriginChecks env origin ++
    [(username = [] || !username.all isUrlUnreserved || !password.all isUrlUnreserved,
      text "[torrent] proxy credentials must be non-empty URL-unreserved ASCII")]
  | _, _, _ =>
    [(true, text "[torrent] proxy username and password must be set together with socks_proxy_url")]

/-- The rate of a torrent session is a number of 32 bits. -/
def rqbitMaxKib : Nat := (2 ^ 32 - 1) / 1024

def badRatio (r : F64) : Bool := !r.isFinite || r.isNegative

def tooManyMinutes (minutes : Nat) : Bool := (2 ^ 64 - 1) / 60 < minutes

def categoryChecks (c : CategoryConfig) : List Check :=
  [(c.seedRatio.any badRatio,
      text "category '" ++ c.name ++ text "' seed_ratio must be a finite non-negative number"),
    (c.seedMinutes.any tooManyMinutes, text "category '" ++ c.name ++ text "' seed_minutes is too large")]

def torrentChecks (env : Env) (cfg : Config) : List Check :=
  let t := cfg.torrent
  [(t.listenPort = 0 || t.listenPort = 65535,
      text "[torrent] listen_port must be one explicit port between 1 and 65534"),
    (t.upnpPortForwarding,
      text "[torrent] upnp_port_forwarding is unavailable in the maintained backend"),
    (t.localDiscovery, text "[torrent] local_discovery is unavailable in the maintained backend"),
    (t.maxPeersPerTorrent = 0 || t.maxPeersTotal = 0 || t.maxKnownPeersPerTorrent = 0 ||
        t.maxKnownPeersTotal = 0,
      text "[torrent] peer ceilings must be greater than zero"),
    (t.maxPeersTotal < t.maxPeersPerTorrent || t.maxKnownPeersTotal < t.maxKnownPeersPerTorrent ||
        t.maxKnownPeersPerTorrent < t.maxPeersPerTorrent || t.maxKnownPeersTotal < t.maxPeersTotal,
      text "[torrent] peer ceilings must satisfy live-per-torrent <= live-total and live <= retained"),
    (badRatio t.defaultSeedRatio,
      text "[torrent] default_seed_ratio must be a finite non-negative number"),
    (rqbitMaxKib < t.uploadLimitKib.toNat,
      text "[torrent] upload_limit_kib must not exceed " ++ Nat.toDigits 10 rqbitMaxKib),
    (t.enabled && cfg.queue.speedLimitKib.any (rqbitMaxKib < ·.toNat),
      text "[queue] speed_limit_kib must not exceed " ++ Nat.toDigits 10 rqbitMaxKib ++
        text " while the torrent backend is configured"),
    (t.metainfoMaxMib < 1 || 100 < t.metainfoMaxMib,
      text "[torrent] metainfo_max_mib must be between 1 and 100"),
    (5 < t.sourceRedirects, text "[torrent] source_redirects must be between 0 and 5"),
    (tooManyMinutes t.defaultSeedMinutes, text "[torrent] default_seed_minutes is too large")] ++
  proxyChecks env t ++
  [(t.socksProxyUrl.isSome && t.dht,
    text "[torrent] dht must be false when a SOCKS proxy is configured")] ++
  cfg.categories.flatMap categoryChecks ++
  [(t.enabled && cfg.cluster.enabled,
    text "[torrent] cannot be enabled while [cluster] is enabled; M6 is not approved")]

def checks (env : Env) (cfg : Config) : List Check :=
  secretChecks cfg ++ cfg.servers.flatMap serverChecks ++ cfg.feeds.map feedCheck ++
    [rootCheck env cfg] ++ clusterChecks cfg.cluster ++ torrentChecks env cfg

/-- The first check that hits. -/
def validate (env : Env) (cfg : Config) : Except Text Unit :=
  match (checks env cfg).find? (·.1) with
  | some (_, e) => .error e
  | none => .ok ()

/-! ### What is valid -/

def Valid (env : Env) (cfg : Config) : Prop := validate env cfg = .ok ()

instance (env : Env) (cfg : Config) : Decidable (Valid env cfg) :=
  inferInstanceAs (Decidable (_ = _))

theorem valid_iff {env : Env} {cfg : Config} :
    Valid env cfg ↔ ∀ c ∈ checks env cfg, c.1 = false := by
  unfold Valid validate
  constructor
  · intro h c hc
    split at h
    · cases h
    · next hnone => simpa using List.find?_eq_none.mp hnone c hc
  · intro h
    have hnone : (checks env cfg).find? (·.1) = none :=
      List.find?_eq_none.mpr fun c hc => by simp [h c hc]
    rw [hnone]

/-- What is relied on of a valid configuration. -/
structure Sound (cfg : Config) : Prop where
  servers : ∀ s ∈ cfg.servers, s.password ≠ some secretMask
  apiPassword : cfg.api.password ≠ some secretMask
  apiToken : cfg.api.token ≠ some secretMask
  clusterSecret : cfg.cluster.secret ≠ some secretMask
  proxyPassword : cfg.torrent.socksProxyPassword ≠ some secretMask
  connections : ∀ s ∈ cfg.servers, s.connections ≠ 0
  uploadLimit : cfg.torrent.uploadLimitKib.toNat ≤ rqbitMaxKib
  seedRatio : cfg.torrent.defaultSeedRatio.isFinite = true
  seedRatios : ∀ c ∈ cfg.categories, ∀ r ∈ c.seedRatio, r.isFinite = true

theorem Valid.sound {env : Env} {cfg : Config} (h : Valid env cfg) : Sound cfg := by
  have hall := valid_iff.mp h
  have hsecret (c) (hc : c ∈ secretChecks cfg) : c.1 = false :=
    hall c (by simp [checks, hc])
  have hmask (v field) (hc : maskHit v field ∈ secretChecks cfg) : v ≠ some secretMask := by
    simpa [maskHit, isMask] using hsecret _ hc
  have htorrent (c) (hc : c ∈ torrentChecks env cfg) : c.1 = false :=
    hall c (by simp [checks, hc])
  have hratio (r : F64) (hr : badRatio r = false) : r.isFinite = true := by
    simp only [badRatio, Bool.or_eq_false_iff, Bool.not_eq_false'] at hr
    exact hr.1
  refine ⟨fun s hs => hmask _ (serverPassword s) ?_, hmask _ (text "[api] password") ?_,
    hmask _ (text "[api] token") ?_, hmask _ (text "[cluster] secret") ?_,
    hmask _ (text "[torrent] socks_proxy_password") ?_, fun s hs => ?_, ?_, ?_, fun c hc r hr => ?_⟩
  · exact List.mem_append_left _ (List.mem_map.mpr ⟨s, hs, rfl⟩)
  · simp [secretChecks]
  · simp [secretChecks]
  · simp [secretChecks]
  · simp [secretChecks]
  · have hzero := hall (s.connections = 0, text "server '" ++ s.name ++ text "' has zero connections")
      (by
        have hin : (decide (s.connections = 0),
            text "server '" ++ s.name ++ text "' has zero connections") ∈
            cfg.servers.flatMap serverChecks :=
          List.mem_flatMap.mpr ⟨s, hs, by simp [serverChecks]⟩
        simp only [checks, List.mem_append]
        tauto)
    simpa using hzero
  · have hlimit := htorrent (rqbitMaxKib < cfg.torrent.uploadLimitKib.toNat,
      text "[torrent] upload_limit_kib must not exceed " ++ Nat.toDigits 10 rqbitMaxKib)
      (by simp [torrentChecks])
    simpa using hlimit
  · exact hratio _ (htorrent (badRatio cfg.torrent.defaultSeedRatio,
      text "[torrent] default_seed_ratio must be a finite non-negative number")
      (by simp [torrentChecks]))
  · have hbad := htorrent (c.seedRatio.any badRatio,
      text "category '" ++ c.name ++ text "' seed_ratio must be a finite non-negative number")
      (by
        have hin : (c.seedRatio.any badRatio, text "category '" ++ c.name ++
            text "' seed_ratio must be a finite non-negative number") ∈
            cfg.categories.flatMap categoryChecks :=
          List.mem_flatMap.mpr ⟨c, hc, by simp [categoryChecks]⟩
        simp only [torrentChecks, List.mem_append]
        tauto)
    rw [Option.mem_def.mp hr] at hbad
    exact hratio r hbad

theorem Valid.speedLimit {env : Env} {cfg : Config} (h : Valid env cfg)
    (henabled : cfg.torrent.enabled = true) {k : UInt64}
    (hk : cfg.queue.speedLimitKib = some k) : k.toNat ≤ rqbitMaxKib := by
  have hlimit := valid_iff.mp h
    (cfg.torrent.enabled && cfg.queue.speedLimitKib.any (rqbitMaxKib < ·.toNat),
      text "[queue] speed_limit_kib must not exceed " ++ Nat.toDigits 10 rqbitMaxKib ++
        text " while the torrent backend is configured")
    (by simp [checks, torrentChecks])
  simpa [henabled, hk] using hlimit

def speedLimitBps (cfg : Config) : Option UInt64 := cfg.queue.speedLimitKib.map (· * 1024)

/-! ### Servers of the engine -/

inductive TlsMode
  | none
  | tls

structure EngineServer extends Engine.ServerDef where
  name : Text
  host : Text
  port : Nat
  tls : TlsMode
  username : Option Text
  password : Option Text
  maxConnections : Nat
  pipelineDepth : Nat
  certVerification : CertVerification

def serverDef (i : Nat) (s : ServerConfig) : EngineServer where
  id := i + 1
  active := s.active
  tier := s.tier
  group := s.group
  fill := s.fill
  retentionDays := s.retentionDays
  name := s.name
  host := s.host
  port := s.port
  tls := if s.tls then .tls else .none
  username := s.username
  password := s.password
  maxConnections := s.connections
  pipelineDepth := max s.pipelineDepth 1
  certVerification := s.certVerification

def serverDefs (cfg : Config) : List EngineServer := cfg.servers.mapIdx serverDef

end Config

end Nzbd
