/-
`configureRequest` of `http/Request`: the libcurl settings and headers of a
transfer, from the options and from where the request goes.

The options are what `Options::get` answers.  libcurl, the URL parser, regular
expressions, the reading of sizes and the cookie files are parameters.
-/
import Aria2Next.Text

namespace Aria2Next.Http

open Text

/-- `uri::Parts`, as far as a request looks at it. -/
structure UriParts where
  scheme : Text
  host : Text
  port : Text

/-- The options of libcurl that are set. -/
inductive CurlOption where
  | url | share | protocols | redirProtocols | followLocation | maxRedirs
  | failOnError | suppressConnectHeaders | bufferSize | tcpKeepAlive | httpAuth
  | connectTimeout | lowSpeedLimit | lowSpeedTime | forbidReuse | fileTime
  | userAgent | referer | sslVerifyPeer | sslVerifyHost | proxySslVerifyPeer
  | proxySslVerifyHost | sslVersion | caInfo | sslCert | sslKey | interface
  | ipResolve | dohUrl | username | password | sshPrivateKeyFile
  | sshHostPublicKeySha256 | netrc | netrcFile | proxy | proxyUsername
  | proxyPassword | noProxy | cookieFile | cookieList | cookieJar
deriving DecidableEq, Repr

/-- A value that is set; the constants of libcurl stand by name. -/
inductive CurlValue where
  | number (value : Int)
  | text (value : Text)
  | constant (name : String)
deriving DecidableEq, Repr

/-- A call `configureRequest` makes. -/
inductive CurlCall where
  | set (option : CurlOption) (value : CurlValue)
  | header (line : Text)
deriving DecidableEq, Repr

/-- What the code asks of libraries and the file system. -/
structure Surroundings where
  parse : Text → Option UriParts
  toSize : Text → Option Int
  /-- `std::regex_match` of a host with a pattern, in any letter case. -/
  regexMatch : Text → Text → Bool
  isSqliteCookieFile : Text → Bool
  fileRevision : Text → Text
  sqliteCookieLines : Text → List Text

/-- What `Options::get` answers. -/
abbrev OptionValues := String → Text

namespace OptionValues

def flag (options : OptionValues) (name : String) : Bool := options name = of "true"

def blank (options : OptionValues) (name : String) : Bool := (options name).isEmpty

end OptionValues

variable (around : Surroundings)

variable (options : OptionValues)

def integer (name : String) : Int := (around.toSize (options name)).getD 0

def sameOrigin (a b : Text) : Bool :=
  match around.parse a, around.parse b with
  | some left, some right => left.scheme = right.scheme &&
      iequals left.host right.host && left.port = right.port
  | _, _ => false

def schemeOf (url : Text) : Text := ((around.parse url).map UriParts.scheme).getD []

/-- The pattern of a rule with stars. -/
def globPattern (rule : Text) : Text := rule.flatMap fun byte =>
    if byte = 0x2a then of ".*"
    else if byte ∈ of ".^$|()[]\x7b\x7d+?\\" then [0x5c, byte]
    else [byte]

/-- Expands host globs for this request. -/
def noProxyFor (rules host : Text) : Text := join (((split
    (rules.map fun byte => if byte = 0x3b then 0x2c else byte) 0x2c).map fun rule =>
        if rule ≠ [0x2a] ∧ 0x2a ∈ rule then
          if around.regexMatch host (globPattern rule) then host else []
        else rule).filter fun rule => !rule.isEmpty) [0x2c]

def proxyKind (scheme : Text) : String :=
  if scheme = of "https" then "https"
  else if scheme = of "http" then "http" else "all"

def number (option : CurlOption) (value : Int) : CurlCall := .set option (.number value)

/-- A text that is set unless it is empty. -/
def unlessEmpty (option : CurlOption) (value : Text) : List CurlCall :=
  if value.isEmpty then [] else [.set option (.text value)]

/-- The settings of every transfer. -/
def transport (url originalUrl : Text) : List CurlCall :=
  let referer := options "referer"
  [.set .url (.text url), .set .share (.constant "share"),
    .set .protocols (.constant "http,https,sftp"),
    .set .redirProtocols (.constant "http,https,sftp"),
    number .followLocation 1, number .maxRedirs 20, number .failOnError 1,
    number .suppressConnectHeaders 1, number .bufferSize (512 * 1024),
    number .tcpKeepAlive 1, .set .httpAuth (.constant "CURLAUTH_ANY"),
    number .connectTimeout (integer around options "connect-timeout"),
    number .lowSpeedLimit (max 1 (integer around options "lowest-speed-limit")),
    number .lowSpeedTime (integer around options "timeout"),
    number .forbidReuse (if options.flag "enable-http-keep-alive" then 0 else 1),
    number .fileTime 1, .set .userAgent (.text (options "user-agent"))] ++
    unlessEmpty .referer (if referer = [0x2a] then originalUrl else referer)

/-- Custom headers.  Credentials in them stay with the origin they were given
for. -/
def headers (same : Bool) : List CurlCall :=
  ((split (options "header") 0x0a).filter fun line =>
    !(!same && (istartsWith line (of "authorization:") ||
      istartsWith line (of "cookie:")))).map .header ++
    if options.flag "http-no-cache" then
      [.header (of "Cache-Control: no-cache"), .header (of "Pragma: no-cache")]
    else []

def tls : List CurlCall :=
  let verify := options.flag "check-certificate"
  let version := options "min-tls-version"
  [number .sslVerifyPeer (if verify then 1 else 0), number .sslVerifyHost (if verify then 2 else 0),
    number .proxySslVerifyPeer (if verify then 1 else 0),
    number .proxySslVerifyHost (if verify then 2 else 0),
    .set .sslVersion (.constant (if version = of "TLSv1.3" then "CURL_SSLVERSION_TLSv1_3"
        else if version = of "TLSv1.2" then "CURL_SSLVERSION_TLSv1_2"
        else "CURL_SSLVERSION_TLSv1_1"))] ++
    unlessEmpty .caInfo (options "ca-certificate") ++
    unlessEmpty .sslCert (options "certificate") ++
    unlessEmpty .sslKey (options "private-key")

def network : List CurlCall :=
  unlessEmpty .interface (options "interface") ++ (if options.flag "disable-ipv6" then
      [.set .ipResolve (.constant "CURL_IPRESOLVE_V4")] else []) ++
    unlessEmpty .dohUrl (options "dns-over-https")

/-- User and password, by the scheme of the request. -/
def credentials (scheme : Text) (same : Bool) : List CurlCall :=
  if scheme = of "sftp" then
    (if options.blank "sftp-user" then []
      else [.set .username (.text (options "sftp-user")),
        .set .password (.text (options "sftp-passwd"))]) ++
      unlessEmpty .sshPrivateKeyFile (options "private-key") ++
      unlessEmpty .sshHostPublicKeySha256 (options "ssh-host-key-sha256")
  else if same && !options.blank "http-user" then
    [.set .username (.text (options "http-user")), .set .password (.text (options "http-passwd"))]
  else []

def netrc : List CurlCall :=
  if options.flag "no-netrc" then []
  else .set .netrc (.constant "CURL_NETRC_OPTIONAL") ::
    unlessEmpty .netrcFile (options "netrc-path")

/-- The option with the proxy of a scheme, or the one for all. -/
def proxyOption (scheme : Text) : String :=
  let kind := proxyKind scheme
  if kind = "all" ∨ options.blank (kind ++ "-proxy") then "all-proxy"
  else kind ++ "-proxy"

def proxy (url : Text) : List CurlCall :=
  let name := proxyOption options (schemeOf around url)
  if options.blank name then []
  else
    .set .proxy (.text (options name)) :: (if options.blank (name ++ "-user") then []
        else [.set .proxyUsername (.text (options (name ++ "-user"))),
          .set .proxyPassword (.text (options (name ++ "-passwd")))]) ++
      match around.parse url with
      | some parts =>
        if options.blank "no-proxy" then []
        else [.set .noProxy (.text (noProxyFor around (options "no-proxy") parts.host))]
      | none => []

/-- One jar shared by all transfers; browser stores load once per revision,
and `loaded` is the revision loaded last. -/
def cookies (loaded : Text) : List CurlCall :=
  let file := options "load-cookies"
  [.set .cookieFile (.text [])] ++ (if file.isEmpty then []
      else if around.isSqliteCookieFile file then
        if loaded = file ++ [0x7c] ++ around.fileRevision file then []
        else (around.sqliteCookieLines file).map fun line =>
          .set .cookieList (.text line)
      else [.set .cookieFile (.text file)]) ++
    unlessEmpty .cookieJar (options "save-cookies")

/-- Every call for a request, as long as libcurl takes the settings. -/
def configureRequest (url originalUrl loaded : Text) : List CurlCall :=
  let same := sameOrigin around url originalUrl
  transport around options url originalUrl ++ headers options same ++
    tls options ++ network options ++
    credentials options (schemeOf around url) same ++ netrc options ++
    proxy around options url ++ cookies around options loaded

/-- The calls that are issued: a setting libcurl refuses ends the request. -/
def issued (accepts : CurlCall → Bool) : List CurlCall → List CurlCall
  | [] => []
  | call :: rest => call :: if accepts call then issued accepts rest else []

end Aria2Next.Http
