import Nzbd.Engine.Failover
import Nzbd.Engine.Naming
import Nzbd.Torrent.Record

/-!
# The configuration

The settings of the daemon, section by section, and what makes them valid.

A path is the list of its components, which is what two paths are compared by.  A floating
point number is its value; zero has one, and what is not a number is equal to nothing.
`validate` is the list of its `checks`, in the order in which the code makes them: the first
that hits is the error.  The home directory and the parser of URLs come from outside.
-/

namespace Nzbd

open Torrent (PathBuf Component)

namespace Config

inductive F64
  | nan
  | infinite (negative : Bool)
  | finite (value : ℚ)
  deriving DecidableEq

namespace F64

/-- The comparison of the language. -/
def eq : F64 → F64 → Bool
  | .nan, _ => false
  | a, b => a = b

def isFinite : F64 → Bool
  | .finite _ => true
  | _ => false

def isNegative : F64 → Bool
  | .finite v => v < 0
  | .infinite negative => negative
  | .nan => false

theorem eq_iff {a b : F64} (h : a.isFinite = true) : a.eq b = true ↔ a = b := by
  cases a with
  | nan => cases h
  | infinite => cases h
  | finite v => simp [eq]

end F64

structure Paths where
  mainDir : PathBuf
  destDir : PathBuf
  interDir : Option PathBuf
  nzbWatchDir : Option PathBuf
  queueDir : Option PathBuf
  tempDir : Option PathBuf
  torrentDir : Option PathBuf
  torrentWatchDir : Option PathBuf
  deriving DecidableEq

inductive CertVerification
  | none
  | minimal
  | strict
  deriving DecidableEq

structure ServerConfig where
  name : Text
  host : Text
  port : Nat
  tls : Bool
  username : Option Text
  password : Option Text
  active : Bool
  tier : Nat
  group : Nat
  fill : Bool
  connections : Nat
  pipelineDepth : Nat
  retentionDays : Nat
  certVerification : CertVerification
  deriving DecidableEq

structure CategoryConfig where
  name : Text
  destDir : Option PathBuf
  unpack : Option Bool
  extensions : List Text
  torrentDir : Option PathBuf
  seedRatio : Option F64
  seedMinutes : Option Nat
  stopSeedingOnComplete : Option Bool
  deriving DecidableEq

structure FeedConfig where
  name : Text
  url : Text
  intervalMins : Nat
  /-- Empty: accept all. -/
  filter : Text
  category : Option Text
  priority : Int
  pause : Bool
  deriving DecidableEq

structure QueueConfig where
  articleRetries : Nat
  retryIntervalSecs : Nat
  articleTimeoutSecs : Nat
  articleCacheMb : Nat
  directWrite : Bool
  crcCheck : Bool
  continuePartial : Bool
  propagationDelayMins : Nat
  minFreeDiskMb : Nat
  speedLimitKib : Option UInt64
  maxActiveDownloads : Nat
  dailyQuotaMb : Nat
  monthlyQuotaMb : Nat
  quotaStartDay : Nat
  deriving DecidableEq

structure ApiConfig where
  bind : Text
  discovery : Bool
  tls : Bool
  tlsCert : Option PathBuf
  tlsKey : Option PathBuf
  tlsSans : List Text
  compatVersion : Text
  allowLegacyDefaultCredentials : Bool
  username : Text
  password : Option Text
  token : Option Text
  deriving DecidableEq

structure PostSection where
  enabled : Bool
  par2Cmd : Text
  unrarCmd : Text
  sevenzipCmd : Text
  scriptsDir : Option PathBuf
  unpack : Bool
  cleanup : Bool
  deobfuscateFinal : Bool
  strategy : Text
  failureAction : Text
  failedDir : Option PathBuf
  toolTimeoutSecs : Nat
  scriptTimeoutSecs : Nat
  parFetchTimeoutSecs : Nat
  deriving DecidableEq

structure HistorySection where
  indexDir : Option PathBuf
  keepMax : Nat
  keepDays : Nat
  deriving DecidableEq

structure ClusterControlPeer where
  id : Nat
  raftAddr : Text
  apiAddr : Text
  deriving DecidableEq

structure ClusterConfig where
  enabled : Bool
  clusterId : Text
  nodeName : Text
  sharedDir : Option PathBuf
  advertiseUrl : Text
  secret : Option Text
  secretFile : Option PathBuf
  coordinator : Bool
  priority : Nat
  download : Bool
  maxDownloadJobs : Nat
  postProcess : Bool
  ppSlots : Nat
  leaseIntervalSecs : Nat
  takeoverAfterSecs : Nat
  workerTtlSecs : Nat
  controlDir : Option PathBuf
  controlNodeId : Nat
  controlRaftBind : Text
  controlApiBind : Text
  controlPeers : List ClusterControlPeer
  downloadWeight : Nat
  ppWeight : Nat
  deriving DecidableEq

structure TorrentConfig where
  enabled : Bool
  listenPort : Nat
  dht : Bool
  pex : Bool
  localDiscovery : Bool
  upnpPortForwarding : Bool
  socksProxyUrl : Option Text
  socksProxyUsername : Option Text
  socksProxyPassword : Option Text
  maxPeersPerTorrent : Nat
  maxPeersTotal : Nat
  maxKnownPeersPerTorrent : Nat
  maxKnownPeersTotal : Nat
  uploadLimitKib : UInt64
  defaultSeedRatio : F64
  defaultSeedMinutes : Nat
  stopSeedingOnComplete : Bool
  metainfoMaxMib : Nat
  sourceRedirects : Nat
  deriving DecidableEq

end Config

structure Config where
  paths : Config.Paths
  servers : List Config.ServerConfig
  categories : List Config.CategoryConfig
  feeds : List Config.FeedConfig
  queue : Config.QueueConfig
  api : Config.ApiConfig
  post : Config.PostSection
  history : Config.HistorySection
  cluster : Config.ClusterConfig
  torrent : Config.TorrentConfig
  deriving DecidableEq

namespace Config

/-! ### Defaults -/

def dir (names : List String) : PathBuf := names.map fun n => .normal (text n)

def defaultPaths : Paths :=
  ⟨dir ["~", "downloads"], dir ["~", "downloads", "complete"], none, none, none, none, none, none⟩

def defaultServer : ServerConfig where
  name := []
  host := []
  port := 563
  tls := true
  username := none
  password := none
  active := true
  tier := 0
  group := 0
  fill := false
  connections := 8
  pipelineDepth := 2
  retentionDays := 0
  certVerification := .strict

def defaultQueue : QueueConfig where
  articleRetries := 3
  retryIntervalSecs := 10
  articleTimeoutSecs := 60
  articleCacheMb := 0
  directWrite := true
  crcCheck := true
  continuePartial := true
  propagationDelayMins := 0
  minFreeDiskMb := 250
  speedLimitKib := none
  maxActiveDownloads := 1
  dailyQuotaMb := 0
  monthlyQuotaMb := 0
  quotaStartDay := 1

def defaultApi : ApiConfig where
  bind := text "127.0.0.1:6789"
  discovery := true
  tls := false
  tlsCert := none
  tlsKey := none
  tlsSans := []
  compatVersion := text "26.2"
  allowLegacyDefaultCredentials := false
  username := text "nzbd"
  password := none
  token := none

def defaultPost : PostSection where
  enabled := true
  par2Cmd := text "par2"
  unrarCmd := text "unrar"
  sevenzipCmd := text "7z"
  scriptsDir := none
  unpack := true
  cleanup := true
  deobfuscateFinal := true
  strategy := text "balanced"
  failureAction := text "delete"
  failedDir := none
  toolTimeoutSecs := 3600
  scriptTimeoutSecs := 3600
  parFetchTimeoutSecs := 600

def defaultCluster : ClusterConfig where
  enabled := false
  clusterId := text "default"
  nodeName := []
  sharedDir := none
  advertiseUrl := []
  secret := none
  secretFile := none
  coordinator := true
  priority := 10
  download := true
  maxDownloadJobs := 2
  postProcess := true
  ppSlots := 1
  leaseIntervalSecs := 5
  takeoverAfterSecs := 20
  workerTtlSecs := 30
  controlDir := none
  controlNodeId := 1
  controlRaftBind := text "127.0.0.1:8810"
  controlApiBind := text "127.0.0.1:8820"
  controlPeers := []
  downloadWeight := 1
  ppWeight := 1

def defaultTorrent : TorrentConfig where
  enabled := false
  listenPort := 6881
  dht := false
  pex := true
  localDiscovery := false
  upnpPortForwarding := false
  socksProxyUrl := none
  socksProxyUsername := none
  socksProxyPassword := none
  maxPeersPerTorrent := 80
  maxPeersTotal := 400
  maxKnownPeersPerTorrent := 1024
  maxKnownPeersTotal := 4096
  uploadLimitKib := 0
  defaultSeedRatio := .finite 0
  defaultSeedMinutes := 0
  stopSeedingOnComplete := false
  metainfoMaxMib := 10
  sourceRedirects := 5

def default : Config where
  paths := defaultPaths
  servers := []
  categories := []
  feeds := []
  queue := defaultQueue
  api := defaultApi
  post := defaultPost
  history := ⟨none, 1000, 90⟩
  cluster := defaultCluster
  torrent := defaultTorrent

end Config

end Nzbd
