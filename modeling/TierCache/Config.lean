import TierCache.Replication.Settings
import TierCache.Store.Backend
import TierCache.Text.Integer

/-!
The configuration of an instance, as it is read from the environment. A variable that is missing or
cannot be read leaves its default.
-/
namespace TierCache

structure Config where
  maxMemoryObjects : Nat
  defaultRegion : String
  /-- The seconds between two sweeps. -/
  cleanupInterval : Nat
  networkEnabled : Bool
  bindAddress : String
  serverPort : Nat
  maxLineLength : Nat
  /-- The seconds after which a silent connection ends. -/
  idleTimeout : Nat
  adminPort : Nat
  storeBackend : BackendKind
  storePath : String
  clusterEnabled : Bool
  instanceId : String
  clusterMode : String
  heartbeatInterval : Nat
  failoverTimeout : Nat
  startupWait : Nat
  autoPromote : Bool
  replicationTopic : String
  healthTopic : String
  clusterListenAddress : String
  /-- The addresses of the other instances, parted by commas. -/
  clusterPeers : String
  deriving DecidableEq, Repr

namespace Config

/-- The configuration that an empty environment gives. -/
def default (instanceId : String) : Config :=
  { maxMemoryObjects := 100000, defaultRegion := "region0", cleanupInterval := 60,
    networkEnabled := true, bindAddress := "0.0.0.0", serverPort := 6379,
    maxLineLength := 1024 * 1024, idleTimeout := 300, adminPort := 8080,
    storeBackend := .memory, storePath := "./data/store", clusterEnabled := false, instanceId,
    clusterMode := "primary", heartbeatInterval := 5000, failoverTimeout := 15000,
    startupWait := 10000, autoPromote := true,
    replicationTopic := Replication.Settings.defaultReplicationTopic,
    healthTopic := Replication.Settings.defaultHealthTopic,
    clusterListenAddress := "0.0.0.0:7400", clusterPeers := "" }

/-- The names of the variables. -/
def variableNames : List String :=
  ["CACHE_MAX_MEMORY_OBJECTS", "CACHE_DEFAULT_REGION", "CACHE_CLEANUP_INTERVAL",
    "NETWORK_SERVER_ENABLED", "NETWORK_BIND_ADDRESS", "NETWORK_SERVER_PORT",
    "NETWORK_MAX_LINE_LENGTH", "NETWORK_IDLE_TIMEOUT", "ADMIN_PORT", "CACHE_STORE_BACKEND",
    "CACHE_STORE_PATH", "CLUSTER_ENABLED", "CLUSTER_INSTANCE_ID", "CLUSTER_MODE",
    "CLUSTER_HEARTBEAT_INTERVAL_MS", "CLUSTER_FAILOVER_TIMEOUT_MS", "CLUSTER_STARTUP_WAIT_MS",
    "CLUSTER_AUTO_PROMOTE", "REPLICATION_TOPIC", "HEALTH_TOPIC", "CLUSTER_LISTEN_ADDRESS",
    "CLUSTER_PEERS"]

def boolean? (s : String) : Option Bool :=
  if s = "true" then some true else if s = "false" then some false else none

def port? : String → Option Nat := Text.unsigned? 65535

def word? : String → Option Nat := Text.unsigned? Text.maxUnsigned

/-- Reads the configuration from the variables of an environment; `instanceId` is the identifier of
an instance that is given none. -/
def ofEnvironment (lookup : String → Option String) (instanceId : String) : Config :=
  let base := default instanceId
  let number name d := ((lookup name).bind word?).getD d
  let flag name d := ((lookup name).bind boolean?).getD d
  let text name d := (lookup name).getD d
  { maxMemoryObjects := number "CACHE_MAX_MEMORY_OBJECTS" base.maxMemoryObjects
    defaultRegion := text "CACHE_DEFAULT_REGION" base.defaultRegion
    cleanupInterval := number "CACHE_CLEANUP_INTERVAL" base.cleanupInterval
    networkEnabled := flag "NETWORK_SERVER_ENABLED" base.networkEnabled
    bindAddress := text "NETWORK_BIND_ADDRESS" base.bindAddress
    serverPort := ((lookup "NETWORK_SERVER_PORT").bind port?).getD base.serverPort
    maxLineLength := number "NETWORK_MAX_LINE_LENGTH" base.maxLineLength
    idleTimeout := number "NETWORK_IDLE_TIMEOUT" base.idleTimeout
    adminPort := ((lookup "ADMIN_PORT").bind port?).getD base.adminPort
    storeBackend := ((lookup "CACHE_STORE_BACKEND").bind fun s =>
      (BackendKind.ofText s).toOption).getD base.storeBackend
    storePath := text "CACHE_STORE_PATH" base.storePath
    clusterEnabled := flag "CLUSTER_ENABLED" base.clusterEnabled
    instanceId := text "CLUSTER_INSTANCE_ID" base.instanceId
    clusterMode := text "CLUSTER_MODE" base.clusterMode
    heartbeatInterval := number "CLUSTER_HEARTBEAT_INTERVAL_MS" base.heartbeatInterval
    failoverTimeout := number "CLUSTER_FAILOVER_TIMEOUT_MS" base.failoverTimeout
    startupWait := number "CLUSTER_STARTUP_WAIT_MS" base.startupWait
    autoPromote := flag "CLUSTER_AUTO_PROMOTE" base.autoPromote
    replicationTopic := text "REPLICATION_TOPIC" base.replicationTopic
    healthTopic := text "HEALTH_TOPIC" base.healthTopic
    clusterListenAddress := text "CLUSTER_LISTEN_ADDRESS" base.clusterListenAddress
    clusterPeers := text "CLUSTER_PEERS" base.clusterPeers }

/-- The addresses of the other instances; blanks around them do not count, nor do empty ones. -/
def peerAddresses (c : Config) : List String :=
  ((Text.splitOn ',' c.clusterPeers.toList).map fun part =>
    String.ofList (Text.trimChars part)).filter (· ≠ "")

/-- The settings of the instance within its cluster. -/
def replication (c : Config) : Replication.Settings :=
  { enabled := c.clusterEnabled, instanceId := c.instanceId,
    startAsPrimary := Text.lower c.clusterMode = "primary",
    heartbeatInterval := c.heartbeatInterval, failoverTimeout := c.failoverTimeout,
    startupWait := c.startupWait, autoPromote := c.autoPromote,
    replicationTopic := c.replicationTopic, healthTopic := c.healthTopic }

/-- The milliseconds after which a silent connection ends. -/
def idleMilliseconds (c : Config) : Nat := c.idleTimeout * 1000

end Config
end TierCache
