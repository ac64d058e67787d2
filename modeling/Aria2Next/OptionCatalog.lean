/-
The options the program knows and the names it no longer knows.

The catalogue is the source's table without what only the help text and the
command line read: the short names, the help sections and the descriptions.
-/
import Aria2Next.Text

namespace Aria2Next

open Text

inductive OptionType where
  /-- `true` or `false`. -/
  | flag
  | integer
  /-- Bytes with an optional unit. -/
  | size
  /-- A decimal that is not negative. -/
  | number
  | text
  | path
  | choice
  /-- Repeatable; the values are joined by line breaks. -/
  | list
deriving DecidableEq

inductive Scope where
  /-- May be given for one task. -/
  | task
  /-- May be changed while the task is active. -/
  | live
  /-- May be changed for all tasks. -/
  | global
  /-- Is not shown by the remote interface. -/
  | secret
deriving DecidableEq

structure OptionSpec where
  name : String
  type : OptionType
  defaultValue : String
  scope : List Scope
  min : Int
  max : Int
  /-- The choices with bars between them. -/
  choices : String
deriving DecidableEq

namespace OptionSpec

def isList (spec : OptionSpec) : Bool := spec.type = .list

def forTasks (spec : OptionSpec) : Bool := .task ∈ spec.scope

end OptionSpec

def int32Max : Int := 2 ^ 31 - 1

def int64Max : Int := 2 ^ 63 - 1

def option (name : String) (type : OptionType) (defaultValue : String)
    (scope : List Scope) (min : Int := 0) (max : Int := int64Max)
    (choices : String := "") : OptionSpec where
  name := name
  type := type
  defaultValue := defaultValue
  scope := scope
  min := min
  max := max
  choices := choices

def taskGlobal : List Scope := [.task, .global]

def taskLiveGlobal : List Scope := [.task, .live, .global]

def optionCatalog : List OptionSpec := [
    -- Basic
    option "dir" .path "." taskGlobal,
    option "out" .path "" [.task],
    option "input-file" .path "" [],
    option "max-concurrent-downloads" .integer "5" [.global] 1 1000,
    option "continue" .flag "false" taskGlobal,
    option "check-integrity" .flag "false" taskGlobal,
    option "log" .path "" [.global],
    option "quiet" .flag "false" [],
    option "daemon" .flag "false" [],
    option "conf-path" .path "" [],
    option "no-conf" .flag "false" [],
    option "version" .flag "false" [],
    option "help" .text "#basic" [],
    -- HTTP, HTTPS and SFTP
    option "split" .integer "16" taskGlobal 1 256,
    option "max-connection-per-server" .integer "16" taskGlobal 1 256,
    option "min-split-size" .size "1M" taskGlobal (2 ^ 14) (2 ^ 30),
    option "timeout" .integer "60" taskGlobal 1 600,
    option "connect-timeout" .integer "60" taskGlobal 1 600,
    option "max-tries" .integer "5" taskGlobal 0 int32Max,
    option "retry-wait" .integer "0" taskGlobal 0 600,
    option "lowest-speed-limit" .size "0" taskGlobal,
    option "max-download-limit" .size "0" taskLiveGlobal,
    option "max-overall-download-limit" .size "0" [.global],
    option "user-agent" .text "aria2-next" taskGlobal,
    option "referer" .text "" taskGlobal,
    option "header" .list "" taskGlobal,
    option "http-user" .text "" (.secret :: taskGlobal),
    option "http-passwd" .text "" (.secret :: taskGlobal),
    option "http-no-cache" .flag "false" taskGlobal,
    option "http-accept-gzip" .flag "true" taskGlobal,
    option "enable-http-keep-alive" .flag "true" taskGlobal,
    option "load-cookies" .path "" taskGlobal,
    option "save-cookies" .path "" taskGlobal,
    option "check-certificate" .flag "true" taskGlobal,
    option "ca-certificate" .path "" taskGlobal,
    option "certificate" .path "" taskGlobal,
    option "private-key" .path "" taskGlobal,
    option "min-tls-version" .choice "TLSv1.2" taskGlobal 0 0 "TLSv1.1|TLSv1.2|TLSv1.3",
    option "all-proxy" .text "" taskGlobal,
    option "all-proxy-user" .text "" (.secret :: taskGlobal),
    option "all-proxy-passwd" .text "" (.secret :: taskGlobal),
    option "http-proxy" .text "" taskGlobal,
    option "http-proxy-user" .text "" (.secret :: taskGlobal),
    option "http-proxy-passwd" .text "" (.secret :: taskGlobal),
    option "https-proxy" .text "" taskGlobal,
    option "https-proxy-user" .text "" (.secret :: taskGlobal),
    option "https-proxy-passwd" .text "" (.secret :: taskGlobal),
    option "no-proxy" .text "" taskGlobal,
    option "dns-over-https" .text "" taskGlobal,
    option "interface" .text "" taskGlobal,
    option "disable-ipv6" .flag "false" taskGlobal,
    option "netrc-path" .path "" taskGlobal,
    option "no-netrc" .flag "false" taskGlobal,
    option "sftp-user" .text "" (.secret :: taskGlobal),
    option "sftp-passwd" .text "" (.secret :: taskGlobal),
    option "ssh-host-key-sha256" .text "" taskGlobal,
    option "remote-time" .flag "false" taskGlobal,
    option "checksum" .text "" [.task],
    option "max-file-not-found" .integer "0" taskGlobal 0 int32Max,
    option "filename-hint" .text "" [.task],
    option "filename-hint-source" .choice "suggested" [.task] 0 0 "browser|title|suggested",
    option "dry-run" .flag "false" taskGlobal,
    -- Output files
    option "allow-overwrite" .flag "false" taskGlobal,
    option "auto-file-renaming" .flag "true" taskGlobal,
    option "incomplete-suffix" .text "" taskGlobal,
    option "auto-file-renaming-style" .choice "dot" taskGlobal 0 0 "dot|parentheses",
    option "file-allocation" .choice "none" taskGlobal 0 0 "none|prealloc|falloc|trunc",
    option "remove-control-file" .flag "false" taskGlobal,
    option "force-save" .flag "false" taskLiveGlobal,
    option "save-not-found" .flag "true" taskLiveGlobal,
    option "index-out" .list "" [.task],
    -- BitTorrent
    option "torrent-file" .path "" [],
    option "follow-torrent" .choice "true" taskGlobal 0 0 "true|mem|false",
    option "select-file" .text "" [.task, .live],
    option "show-files" .flag "false" [],
    option "pause-metadata" .flag "false" taskGlobal,
    option "listen-port" .integer "6881" [.global] 1 65535,
    option "enable-dht" .flag "true" taskGlobal,
    option "enable-peer-exchange" .flag "true" taskGlobal,
    option "bt-enable-lpd" .flag "true" taskGlobal,
    option "bt-port-mapping" .flag "true" [.global],
    option "bt-encryption" .choice "preferred" taskGlobal 0 0 "preferred|required|disabled",
    option "bt-transport" .choice "both" taskGlobal 0 0 "tcp|utp|both",
    option "bt-tracker" .text "" taskGlobal,
    option "bt-exclude-tracker" .text "" taskGlobal,
    option "bt-max-peers" .integer "100" taskLiveGlobal 0 65535,
    option "bt-max-connections" .integer "500" [.global] 2 65535,
    option "bt-max-uploads" .integer "20" [.global] 1 65535,
    option "bt-max-uploads-per-torrent" .integer "4" taskLiveGlobal 1 65535,
    option "max-upload-limit" .size "0" taskLiveGlobal,
    option "max-overall-upload-limit" .size "0" [.global],
    option "seed-ratio" .number "1.0" taskLiveGlobal,
    option "seed-time" .number "" taskLiveGlobal,
    option "bt-seed-unverified" .flag "false" taskGlobal,
    option "bt-super-seeding" .flag "false" taskLiveGlobal,
    option "bt-first-last-piece-first" .flag "false" taskLiveGlobal,
    option "bt-file-priority" .text "" [.task, .live],
    option "force-sequential" .flag "false" taskLiveGlobal,
    option "hash-check-only" .flag "false" taskGlobal,
    option "detach-share-only" .flag "false" taskGlobal,
    option "bt-external-ip" .text "" [.global],
    option "bt-external-port" .integer "0" [.global] 0 65535,
    option "bt-interface" .text "" [.global],
    option "bt-proxy" .text "" [.global],
    option "bt-anonymous-mode" .flag "false" [.global],
    option "bt-user-agent" .text "qBittorrent/5.2.3" [.global],
    option "bt-peer-id-prefix" .text "-qB5230-" [.global],
    option "bt-peer-blocklist" .path "" [.global],
    option "bt-blocklist-scope" .choice "peers" [.global] 0 0 "peers|peers-and-trackers|all",
    option "bt-rate-limit-overhead" .flag "false" [.global],
    option "bt-dht-bootstrap-nodes" .text
      "dht.libtorrent.org:25401,dht.transmissionbt.com:6881,router.bittorrent.com:6881,router.utorrent.com:6881"
      [.global] ,
    -- Metalink
    option "metalink-file" .path "" [],
    option "follow-metalink" .choice "true" taskGlobal 0 0 "true|mem|false",
    -- ED2K
    option "ed2k-server" .text "" taskGlobal,
    option "ed2k-server-list" .path "" taskGlobal,
    option "ed2k-node-list" .path "" taskGlobal,
    option "ed2k-listen-port" .integer "4662" [.global] 0 65535,
    option "ed2k-udp-listen-port" .integer "4672" [.global] 0 65535,
    option "ed2k-port-mapping" .flag "true" [.global],
    option "ed2k-upload-slots" .integer "3" [.global] 1 1000,
    option "ed2k-max-connections" .integer "100" [.global] 1 4096,
    option "ed2k-preview-priority" .flag "false" taskLiveGlobal,
    -- Media
    option "media" .choice "auto" taskGlobal 0 0 "auto|file|hls|dash|collection",
    option "media-format" .choice "mp4" taskGlobal 0 0 "mp4|mkv|vtt",
    option "media-video" .text "best" taskGlobal,
    option "media-audio" .text "best" taskGlobal,
    option "media-subtitles" .text "none" taskGlobal,
    option "media-pause-after-probe" .flag "false" taskGlobal,
    option "media-record-time" .integer "0" taskGlobal 0 31536000,
    option "media-start-time" .integer "0" [.task] 0 31536000,
    option "media-end-time" .integer "0" [.task] 0 31536000,
    option "media-request-contexts" .text "" [.task, .secret],
    option "media-input" .text "" [.task, .secret],
    -- RPC
    option "enable-rpc" .flag "false" [],
    option "rpc-listen-port" .integer "6800" [] 1024 65535,
    option "rpc-listen-all" .flag "false" [],
    option "rpc-allow-origin-all" .flag "false" [],
    option "rpc-secret" .text "" [.secret],
    option "rpc-max-request-size" .size "2M" [] 1024,
    option "rpc-save-upload-metadata" .flag "true" taskGlobal,
    option "pause" .flag "false" [.task],
    option "gid" .text "" [.task],
    -- Advanced
    option "state-dir" .path "" [.global],
    option "save-session" .path "" [.global],
    option "save-session-interval" .integer "0" [.global] 0 int32Max,
    option "state-save-interval" .integer "10" [.global] 1 600,
    option "max-download-result" .integer "1000" [.global] 0 int32Max,
    option "keep-unfinished-download-result" .flag "true" [.global],
    option "stop" .integer "0" [.global] 0 int32Max,
    option "stop-with-process" .integer "0" [.global] 0 int32Max,
    option "summary-interval" .integer "60" [.global] 0 int32Max,
    option "show-console-readout" .flag "true" [.global],
    option "enable-color" .flag "true" [.global],
    option "download-result" .choice "default" [.global] 0 0 "default|full|hide",
    option "log-level" .choice "debug" [.global] 0 0 "debug|info|notice|warn|error",
    option "console-log-level" .choice "notice" [.global] 0 0 "debug|info|notice|warn|error",
    option "log-max-size" .size "10M" [.global] 1024 (2 ^ 30),
    option "log-max-files" .integer "4" [.global] 1 64,
    option "on-download-start" .path "" [.global],
    option "on-download-pause" .path "" [.global],
    option "on-download-stop" .path "" [.global],
    option "on-download-complete" .path "" [.global],
    option "on-download-error" .path "" [.global],
    option "on-bt-download-complete" .path "" [.global]]

def findOption (name : Text) : Option OptionSpec :=
  optionCatalog.find? fun spec => of spec.name = name

/-- Names of earlier versions that have no counterpart; they are accepted and
ignored. -/
def retired : List String := ["allow-piece-length-change", "always-resume", "async-dns",
    "async-dns-server", "bt-announce-all-tiers", "bt-announce-all-trackers",
    "bt-checking-memory", "bt-connection-speed", "bt-detach-seed-only",
    "bt-disk-io", "bt-disk-queue-size", "bt-disk-read-cache",
    "bt-disk-write-cache", "bt-enable-hook-after-hash-check",
    "bt-hash-check-seed", "bt-hashing-threads", "bt-io-threads",
    "bt-keep-alive-interval", "bt-load-saved-metadata", "bt-lpd-interface",
    "bt-max-concurrent-http-announces", "bt-max-in-request-queue",
    "bt-max-open-files", "bt-max-out-request-queue", "bt-metadata-only",
    "bt-min-crypto-level", "bt-mixed-mode", "bt-peer-turnover",
    "bt-peer-turnover-cutoff", "bt-peer-turnover-interval",
    "bt-piece-extent-affinity", "bt-prioritize-piece",
    "bt-remove-unselected-file", "bt-request-peer-speed-limit",
    "bt-request-timeout", "bt-resume-save-interval", "bt-save-metadata",
    "bt-seed-choking-algorithm", "bt-seeding-outgoing-connections",
    "bt-send-buffer-low-watermark", "bt-send-buffer-watermark",
    "bt-send-buffer-watermark-factor", "bt-stop-timeout",
    "bt-stop-tracker-timeout", "bt-timeout", "bt-tracker-completion-timeout",
    "bt-tracker-connect-timeout", "bt-tracker-interval",
    "bt-tracker-receive-timeout", "bt-tracker-timeout",
    "bt-upload-slot-algorithm", "bt-upload-suggestions", "conditional-get",
    "content-disposition-default-utf8", "deferred-input", "dht-entry-point",
    "dht-entry-point-host", "dht-entry-point-host6", "dht-entry-point-port",
    "dht-entry-point-port6", "dht-entry-point6", "dht-file-path",
    "dht-file-path6", "dht-listen-addr", "dht-listen-addr6", "dht-listen-port",
    "dht-message-timeout", "disk-cache", "dscp", "ed2k-min-split-size",
    "ed2k-piece-selector", "enable-async-dns6", "enable-dht6",
    "enable-http-pipelining", "enable-mmap", "event-poll", "ftp-passwd",
    "ftp-pasv", "ftp-proxy", "ftp-proxy-passwd", "ftp-proxy-user",
    "ftp-reuse-connection", "ftp-type", "ftp-user", "http-auth-challenge",
    "human-readable", "max-http-pipelining", "max-mmap-limit",
    "metalink-base-uri", "metalink-enable-unique-protocol",
    "metalink-language", "metalink-location", "metalink-os",
    "metalink-preferred-protocol", "metalink-version", "multiple-interface",
    "no-file-allocation-limit", "no-want-digest-header",
    "optimize-concurrent-downloads", "parameterized-uri", "peer-agent",
    "peer-connection-timeout", "peer-id-prefix", "piece-length",
    "proxy-method", "realtime-chunk-checksum", "reuse-uri", "rlimit-nofile",
    "rpc-certificate", "rpc-passwd", "rpc-private-key", "rpc-secure",
    "rpc-user", "select-least-used-host", "server-stat-if", "server-stat-of",
    "server-stat-timeout", "socket-recv-buffer-size", "ssh-host-key-md",
    "startup-idle-time", "stderr", "stream-max-range-size",
    "stream-piece-selector", "truncate-console-readout", "uri-selector",
    "use-head"]

def isRetired (name : Text) : Bool := retired.any fun spelled => of spelled = name

/-- A name that an option line of the session can carry. -/
def plainName (name : Text) : Bool :=
  !name.isEmpty && name.all fun byte => !isSpace byte && byte != 0x3d

theorem optionCatalog_plain : ∀ s ∈ optionCatalog, plainName (of s.name) = true := by
  simp only [of_eq]
  decide +kernel

theorem findOption_name {n : Text} {s : OptionSpec} (hf : findOption n = some s) :
    s ∈ optionCatalog ∧ of s.name = n := by
  refine ⟨List.mem_of_find?_eq_some hf, ?_⟩
  simpa using List.find?_some hf

theorem findOption_plain {n : Text} {s : OptionSpec} (hf : findOption n = some s) :
    plainName n = true := by
  obtain ⟨hm, hn⟩ := findOption_name hf
  rw [← hn]
  exact optionCatalog_plain s hm

/-- Names are looked up as they are spelled. -/
theorem findOption_of (s : String) :
    findOption (of s) = optionCatalog.find? fun sp => sp.name = s := by
  apply congrArg (fun t => optionCatalog.find? t)
  funext sp
  exact decide_eq_decide.mpr ⟨of_injective, congrArg of⟩

/-- The specifications of the two options the session writes itself. -/
theorem findOption_special : findOption (of "gid") = some (option "gid" .text "" [.task]) ∧
      findOption (of "pause") = some (option "pause" .flag "false" [.task]) := by
  simp only [findOption_of]
  decide +kernel

theorem findOption_header :
    findOption (of "header") = some (option "header" .list "" taskGlobal) := by
  rw [findOption_of]
  decide +kernel

theorem findOption_httpProxy :
    findOption (of "http-proxy") = some (option "http-proxy" .text "" taskGlobal) := by
  rw [findOption_of]
  decide +kernel

theorem not_isRetired : ∀ s ∈ ["gid", "pause", "http-proxy"], isRetired (of s) = false := by
  simp only [isRetired, of_eq]
  decide +kernel

end Aria2Next
