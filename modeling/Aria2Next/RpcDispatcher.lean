/-
`rpc/Dispatcher`: method names to handlers, with the token secret, and how
`rpc/Server` gets its requests there.

A handler is any function of its parameters and the engine that answers or
throws.  The engine is any type; only the option `rpc-secret` is told apart.
That option is neither global nor of a task, so `changeGlobalOption` skips it
and no handler sets it.
-/
import Aria2Next.Text

namespace Aria2Next

open Text

universe u

/-- `boost::json::value`; a double is its bits. -/
inductive Json where
  | null
  | bool (value : Bool)
  | int (value : Int)
  | uint (value : Nat)
  | double (bits : UInt64)
  | string (value : Text)
  | array (items : List Json)
  | object (members : List (Text × Json))

namespace Json

/-- `if_object` and `if_contains`. -/
def member (value : Json) (key : String) : Option Json :=
  match value with
  | .object members => members.lookup (of key)
  | _ => none

def isObject : Json → Bool
  | .object _ => true
  | _ => false

def text (literal : String) : Json := .string (of literal)

end Json

namespace Rpc

def reply (id result : Json) : Json :=
  .object [(of "id", id), (of "jsonrpc", .text "2.0"), (of "result", result)]

def failure (id : Json) (code : Int) (message : Text) : Json :=
  .object [(of "id", id), (of "jsonrpc", .text "2.0"), (of "error", .object
      [(of "code", .int code), (of "message", .string message)])]

/-- Constant-time comparison so the secret cannot be guessed by timing. -/
def sameSecret (given secret : Text) : Bool := (List.range given.length).foldl (fun difference i =>
    difference ||| (given.getD i 0 ^^^ secret.getD (i % max secret.length 1) 0))
    (if given.length = secret.length then (0 : UInt8) else 1) == 0

def multicall : Text := of "system.multicall"

def listMethods : Text := of "system.listMethods"

def listNotifications : Text := of "system.listNotifications"

/-- The methods that need no token. -/
def isOpen (name : Text) : Bool := name = listMethods || name = listNotifications

/-- The token parameter, and the parameters without it. -/
def strip (params : List Json) : Text × List Json :=
  match params with
  | .string value :: rest =>
    if (of "token:").isPrefixOf value then (value.drop 6, rest)
    else ([], params)
  | _ => ([], params)

/-- Checks and strips the token parameter. -/
def authorize (secret name : Text) (params : List Json) : Except Text (List Json) :=
  let (token, params) := strip params
  if isOpen name = false ∧ name ≠ multicall ∧ secret ≠ [] ∧
      sameSecret token secret = false then .error (of "Unauthorized")
  else if name = multicall ∧ secret ≠ [] ∧ token ≠ [] ∧
      sameSecret token secret = false then .error (of "Unauthorized")
  else .ok params

/-- A handler answers or throws, and may change the engine either way. -/
abbrev Method (S : Type u) := List Json → S → Except Text Json × S

/-- What an asynchronous handler does before it returns. -/
inductive AsyncAnswer where
  | result (value : Json)
  | fail (message : Text)
  | throws (message : Text)
  /-- It will reply later. -/
  | later

abbrev AsyncMethod (S : Type u) := List Json → S → AsyncAnswer × S

/-- The names the dispatcher itself knows. -/
def systemNames : List Text := [multicall, listMethods, listNotifications]

/-- The method tables.  `registered` are the methods of `registerMethods` in
front of the two of the system, which it adds last. -/
structure Dispatcher (S : Type u) where
  registered : List (Text × Method S)
  asyncMethods : List (Text × AsyncMethod S)
  registered_names : ∀ entry ∈ registered, entry.1 ∉ systemNames
  async_names : ∀ entry ∈ asyncMethods, entry.1 ∉ systemNames

def notifications : List String :=
  ["aria2.onDownloadStart", "aria2.onDownloadPause", "aria2.onDownloadStop",
    "aria2.onDownloadComplete", "aria2.onDownloadError",
    "aria2.onBtDownloadComplete"]

/-- One call: its method and its own parameters, the token included. -/
structure Call where
  name : Text
  params : List Json

/-- The engine as the dispatcher sees it. -/
structure Host (S : Type u) where
  secret : Text
  state : S
  /-- Ghost: the calls whose handlers ran. -/
  ran : List Call := []

variable {S : Type u}

/-- A handler runs for a call. -/
def Host.run {A : Type} (host : Host S) (call : Call)
    (method : List Json → S → A × S) (params : List Json) : A × Host S :=
  let (answer, state) := method params host.state
  (answer, { host with state, ran := host.ran ++ [call] })

/-- The calls `system.multicall` expects as its first parameter. -/
def multicallItems : List Json → Option (List Json)
  | .array items :: _ => some items
  | _ => none

/-- The call of an item of `system.multicall`; it does not nest. -/
def nestedCall (item : Json) : Option Call :=
  match item.member "methodName" with
  | some (.string name) =>
    if name = multicall then none
    else some ⟨name, match item.member "params" with
      | some (.array params) => params
      | _ => []⟩
  | _ => none

def requestId (request : Json) : Json := (request.member "id").getD .null

/-- The call of a request object, or what is wrong with it. -/
def requestCall (request : Json) : Except Json Call :=
  match request.member "method" with
  | some (.string name) =>
    match request.member "params" with
    | none => .ok ⟨name, []⟩
    | some (.array params) => .ok ⟨name, params⟩
    | some _ => .error (failure (requestId request) (-32602) (of "Invalid params."))
  | _ => .error (failure (requestId request) (-32600) (of "Invalid Request."))

/-- The answers to a list, one after the other. -/
def answers {A : Type} (step : Host S → A → Json × Host S) : Host S → List A → List Json × Host S
  | host, [] => ([], host)
  | host, item :: rest =>
    let (first, host) := step host item
    let (others, host) := answers step host rest
    (first :: others, host)

def invalidRequest : Json := failure .null (-32600) (of "Invalid Request.")

/-- How a request is answered: at once, or when an asynchronous handler
replies to this id. -/
inductive Response where
  | document (value : Json)
  | later (id : Json)

/-- The response to a call that was answered or failed. -/
def replied (id : Json) : Except Text Json → Json
  | .ok result => reply id result
  | .error message => failure id 1 message

/-- The entry of a call in the result of `system.multicall`. -/
def multicallEntry : Except Text Json → Json
  | .ok value => .array [value]
  | .error message =>
    .object [(of "code", .int 1), (of "message", .string message)]

def AsyncAnswer.response (answer : AsyncAnswer) (id : Json) : Response :=
  match answer with
  | .result value => .document (replied id (.ok value))
  | .fail message | .throws message =>
    .document (replied id (.error message))
  | .later => .later id

/-- A call of an asynchronous method, alone in its request. -/
def Host.invokeAsync (host : Host S) (id : Json) (call : Call)
    (method : AsyncMethod S) : Response × Host S :=
  match authorize host.secret call.name call.params with
  | .error message => (.document (replied id (.error message)), host)
  | .ok params =>
    let (answer, host) := host.run call method params
    (answer.response id, host)

namespace Dispatcher

variable (dispatcher : Dispatcher S)

/-- The names of every method, in the order of the tables. -/
def methodNames : List Text :=
  dispatcher.registered.map Prod.fst ++ [listMethods, listNotifications] ++
    dispatcher.asyncMethods.map Prod.fst

def methods : List (Text × Method S) := dispatcher.registered ++ [(listMethods, fun _ state =>
        (.ok (.array ((dispatcher.methodNames ++ [multicall]).map .string)), state)),
      (listNotifications, fun _ state =>
        (.ok (.array (notifications.map .text)), state))]

variable (host : Host S)

/-- `invoke` of any name but `system.multicall`. -/
def invokeMethod (call : Call) : Except Text Json × Host S :=
  match authorize host.secret call.name call.params with
  | .error message => (.error message, host)
  | .ok params =>
    match dispatcher.methods.find? fun entry => entry.1 = call.name with
    | none =>
      (.error (if dispatcher.asyncMethods.any fun entry =>
          entry.1 = call.name
        then call.name ++ of " must be called alone"
        else of "No such method: " ++ call.name), host)
    | some entry => host.run call entry.2 params

def multicallItem (item : Json) : Json × Host S :=
  match nestedCall item with
  | none => (multicallEntry (.error (of "Invalid call")), host)
  | some call =>
    let (answer, host) := dispatcher.invokeMethod host call
    (multicallEntry answer, host)

def invoke (call : Call) : Except Text Json × Host S :=
  if call.name = multicall then
    match authorize host.secret call.name call.params with
    | .error message => (.error message, host)
    | .ok params =>
      match multicallItems params with
      | none => (.error (of "system.multicall expects an array"), host)
      | some items =>
        let (results, host) := answers dispatcher.multicallItem host items
        (.ok (.array results), host)
  else dispatcher.invokeMethod host call

def call (request : Json) : Json × Host S :=
  match requestCall request with
  | .error document => (document, host)
  | .ok call =>
    let (answer, host) := dispatcher.invoke host call
    (replied (requestId request) answer, host)

/-- A request object or a batch. -/
def handle (request : Json) : Json × Host S :=
  match request with
  | .array batch =>
    let (responses, host) := answers (fun host item =>
      if item.isObject then dispatcher.call host item
      else (invalidRequest, host)) host batch
    (.array responses, host)
  | .object _ => dispatcher.call host request
  | _ => (invalidRequest, host)

/-- Asynchronous methods must be called alone; the rest is handled at once. -/
def respond (request : Json) : Response × Host S :=
  let ha : Response × Host S :=
    let (value, host) := dispatcher.handle host request
    (.document value, host)
  match requestCall request with
  | .error _ => ha
  | .ok call =>
    match dispatcher.asyncMethods.find? fun entry => entry.1 = call.name with
    | none => ha
    | some entry => host.invokeAsync (requestId request) call entry.2

end Dispatcher

end Rpc

end Aria2Next
