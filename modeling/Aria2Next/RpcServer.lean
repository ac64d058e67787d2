/-
`rpc/XmlRpc` and the part of `rpc/Server` that passes a request on: XML-RPC
calls become JSON-RPC requests for the same dispatcher.

Reading and writing JSON text and XML documents, and reading a double, is left
to the libraries, which are parameters.
-/
import Aria2Next.RpcDispatcher

namespace Aria2Next.Rpc

open Text

universe u

/-- An element of an XML document. -/
inductive Node where
  | mk (name text : Text) (children : List Node)

namespace Node

def name : Node → Text
  | .mk name _ _ => name

def text : Node → Text
  | .mk _ text _ => text

def children : Node → List Node
  | .mk _ _ children => children

/-- The first child of that name. -/
def child (node : Node) (name : String) : Option Node :=
  node.children.find? fun item => item.name = of name

end Node

/-- A decimal number, at least one digit. -/
def decimal (digits : Text) : Option Nat :=
  if digits ≠ [] ∧ digits.all fun byte => 0x30 ≤ byte ∧ byte ≤ 0x39 then
    some (digits.foldl (fun number byte => number * 10 + (byte.toNat - 0x30)) 0)
  else none

/-- `std::from_chars` of a whole text as an `int64_t`. -/
def int64 (digits : Text) : Option Int :=
  let number := match digits with
    | 0x2d :: rest => (decimal rest).map fun number => -(number : Int)
    | _ => (decimal digits).map fun number => (number : Int)
  number.filter fun number => -(2 ^ 63) ≤ number ∧ number < 2 ^ 63

/-- A signed number; a plus sign is allowed too. -/
def integer (text : Text) : Except Text Json :=
  let trimmed := trim text
  let digits := match trimmed with
    | 0x2b :: rest => if rest.head? = some 0x2d then trimmed else rest
    | _ => trimmed
  match int64 digits with
  | some number => .ok (.int number)
  | none => .error (of "Invalid XML-RPC integer " ++ text)

def boolean (text : Text) : Except Text Json :=
  let flag := trim text
  if flag = of "0" ∨ flag = of "1" then
    .ok (.bool (flag = of "1"))
  else .error (of "Invalid XML-RPC boolean " ++ text)

/-- Encoders may wrap the text. -/
def base64 (text : Text) : Text := text.filter fun byte =>
    !(byte = 0x20 || byte = 0x09 || byte = 0x0d || byte = 0x0a)

/-- `members[key] = value`. -/
def assign (members : List (Text × Json)) (key : Text) (value : Json) : List (Text × Json) :=
  if members.any fun member => member.1 = key then
    members.map fun member => if member.1 = key then (key, value) else member
  else members ++ [(key, value)]

section Convert

variable (toDouble : Text → Option UInt64)

mutual

/-- The value of a `value` element. -/
def toJson : Node → Except Text Json
  | .mk _ text [] => .ok (.string text)
  | .mk _ _ (first :: _) => typed first

/-- The value of a type element. -/
def typed : Node → Except Text Json
  | .mk name text children =>
    if name = of "string" ∨ name = of "dateTime.iso8601" then
      .ok (.string text)
    else if name = of "int" ∨ name = of "i4" ∨
        name = of "i8" then integer text
    else if name = of "boolean" then boolean text
    else if name = of "double" then
      match toDouble (trim text) with
      | some bits => .ok (.double bits)
      | none => .error (of "Invalid XML-RPC double " ++ text)
    else if name = of "base64" then .ok (.string (base64 text))
    else if name = of "nil" then .ok .null
    else if name = of "array" then
      match data children with
      | .ok items => .ok (.array items)
      | .error message => .error message
    else if name = of "struct" then
      match members [] children with
      | .ok members => .ok (.object members)
      | .error message => .error message
    else .error (of "Unsupported XML-RPC type " ++ name)

/-- The values of the first `data` element. -/
def data : List Node → Except Text (List Json)
  | [] => .ok []
  | .mk name _ children :: rest =>
    if name = of "data" then values children else data rest

/-- The `value` elements of a list. -/
def values : List Node → Except Text (List Json)
  | [] => .ok []
  | .mk name text children :: rest =>
    if name = of "value" then
      match toJson (.mk name text children) with
      | .error message => .error message
      | .ok value =>
        match values rest with
        | .error message => .error message
        | .ok others => .ok (value :: others)
    else values rest

/-- The members of a `struct` element. -/
def members (found : List (Text × Json)) : List Node → Except Text (List (Text × Json))
  | [] => .ok found
  | .mk name text children :: rest =>
    let key := if name = of "member"
      then (Node.mk name text children).child "name" else none
    match key, firstValue children with
    | some key, some (.ok value) => members (assign found key.text value) rest
    | some _, some (.error message) => .error message
    | _, _ => .error (of "Invalid XML-RPC struct member")

/-- The first `value` element of a list. -/
def firstValue : List Node → Option (Except Text Json)
  | [] => none
  | .mk name text children :: rest =>
    if name = of "value" then some (toJson (.mk name text children))
    else firstValue rest

end

/-- The value of a `param` element. -/
def param (node : Node) : Except Text Json :=
  let value := if node.name = of "param" then node.child "value" else none
  match value with
  | some value => toJson toDouble value
  | none => .error (of "Invalid XML-RPC param")

/-- The JSON-RPC request for a `methodCall` document. -/
def parseCall (root : Node) : Except Text Json :=
  if root.name ≠ of "methodCall" then
    .error (of "Not an XML-RPC methodCall")
  else
    match root.child "methodName" with
    | none => .error (of "XML-RPC methodCall has no methodName")
    | some name =>
      if trim name.text = [] then
        .error (of "XML-RPC methodCall has no methodName")
      else
        let params := match root.child "params" with
          | some list => list.children.mapM (param toDouble)
          | none => .ok []
        params.map fun params => .object [(of "jsonrpc", .text "2.0"), (of "id", .int 0),
            (of "method", .string (trim name.text)),
            (of "params", .array params)]

end Convert

/-- What the server leaves to libraries. -/
structure Wire where
  parse : Text → Option Json
  encode : Json → Text
  parseDocument : Text → Except Text Node
  toDouble : Text → Option UInt64
  encodeResponse : Json → Bool → Text

inductive Request where
  /-- A body for `/jsonrpc`, of a POST, a GET or a WebSocket message. -/
  | json (body : Text)
  /-- A body for `/rpc`. -/
  | xml (body : Text)

/-- The answer the client gets. -/
inductive Answer where
  | text (body : Text)
  | badRequest
  /-- It comes with the reply of an asynchronous handler. -/
  | later (id : Json)

variable {S : Type u}

/-- The request a body stands for, if it does for one. -/
def Wire.decode (wire : Wire) : Request → Option Json
  | .json body => wire.parse body
  | .xml body =>
    match wire.parseDocument body with
    | .error _ => none
    | .ok root => (parseCall wire.toDouble root).toOption

def Response.map (response : Response) (encode : Json → Text) : Answer :=
  match response with
  | .document value => .text (encode value)
  | .later id => .later id

/-- Whether failed calls of the result become faults. -/
def isMulticall (request : Json) : Bool :=
  match request.member "method" with
  | some (.string name) => name = multicall
  | _ => false

/-- Answers a body through the dispatcher. -/
def serve (wire : Wire) (dispatcher : Dispatcher S) (host : Host S)
    (request : Request) : Answer × Host S :=
  match request with
  | .json _ =>
    match wire.decode request with
    | none =>
      (.text (wire.encode (failure .null (-32700) (of "Parse error."))), host)
    | some value =>
      let (response, host) := dispatcher.respond host value
      (response.map wire.encode, host)
  | .xml _ =>
    match wire.decode request with
    | none => (.badRequest, host)
    | some value =>
      let (response, host) := dispatcher.respond host value
      (response.map fun document =>
        wire.encodeResponse document (isMulticall value), host)

/-- The methods the program registers. -/
def registeredNames : List String :=
  ["aria2.addUri", "aria2.addTorrent", "aria2.addMetalink", "aria2.remove",
    "aria2.forceRemove", "aria2.pause", "aria2.forcePause", "aria2.pauseAll",
    "aria2.forcePauseAll", "aria2.unpause", "aria2.unpauseAll",
    "aria2.tellStatus", "aria2.getUris", "aria2.getFiles", "aria2.getServers",
    "aria2.tellActive", "aria2.tellWaiting", "aria2.tellStopped",
    "aria2.changePosition", "aria2.changeUri", "aria2.getOption",
    "aria2.changeOption", "aria2.getGlobalOption", "aria2.changeGlobalOption",
    "aria2.getGlobalStat", "aria2.purgeDownloadResult",
    "aria2.removeDownloadResult", "aria2.getVersion", "aria2.getSessionInfo",
    "aria2.shutdown", "aria2.forceShutdown", "aria2.saveSession",
    "aria2.resolveFilename", "aria2.getPeers", "aria2.getBtTrackers",
    "aria2.forceBtRecheck", "aria2.forceBtAnnounce", "aria2.replaceBtTrackers",
    "aria2.replaceBtWebSeeds", "aria2.addBtPeers", "aria2.setBtPeerBlocklist",
    "aria2.getBtSessionStatus", "aria2.inspectTorrent", "aria2.finishMedia",
    "aria2.retryMedia", "aria2.ed2kSearch", "aria2.getEd2kSearchResults",
    "aria2.ed2kSearchMore", "aria2.removeEd2kSearch", "aria2.getEd2kStatus"]

def asyncNames : List String := ["aria2.probe", "aria2.moveDownload"]

/-- `registerMethods`, for any handlers. -/
def registerMethods (method : String → Method S)
    (async : String → AsyncMethod S) : Dispatcher S where
  registered := registeredNames.map fun name => (of name, method name)
  asyncMethods := asyncNames.map fun name => (of name, async name)
  registered_names := by
    have hn : ∀ name ∈ registeredNames, of name ∉ systemNames := by
      decide +kernel
    intro entry he
    obtain ⟨name, hna, rfl⟩ := List.mem_map.mp he
    exact hn name hna
  async_names := by
    have hn : ∀ name ∈ asyncNames, of name ∉ systemNames := by
      decide +kernel
    intro entry he
    obtain ⟨name, hna, rfl⟩ := List.mem_map.mp he
    exact hn name hna

end Aria2Next.Rpc
