import NetCache.Cache
import NetCache.Receive

/-!
# The server

`serversockets.cpp`: a handler for each verb, and the loop of `main`, which receives a message,
parses it, hands the request to the handler of its verb and sends the response. Writing to the
console is left out. `main` sends from `(serv_response.to_string()).c_str()`, whose string is
destroyed by then: the bytes sent are taken to be those of `to_string()` all the same. What is
sent without this assumption is in `ServerMemory`.
-/

namespace NetCache

open Lib

/-- `serv_GET` (`serversockets.cpp:30-74`). -/
def servGET (cache : Cache.Impl) (request : HTTPRequest) :
    Except Fault (Cache.Impl × HTTPResponse) := do
  let response := HTTPResponse.new
  let results := JSON.new
  if request.uri = str "/memsize" then
    let results ← results.add (str "memused") (Blob.ofIndex cache.spaceUsed)
    let resultString ← results.toString
    .ok (cache, { response with code := str "200", body := resultString })
  else
    let head ← substr request.uri 0 5
    if head = str "/key/" then
      let key ← substrToEnd request.uri 5
      let (cache, gotten) ← cache.get key
      match gotten.val with
      | some val =>
          let val ← Blob.read val gotten.size
          let results ← results.add key val
          let resultString ← results.toString
          .ok (cache, { response with code := str "200", body := resultString })
      | none =>
          .ok (cache, { response with
            code := str "404", body := str "Item not present in cache" })
    else .ok (cache, { response with code := str "502", body := str "bad gateway" })

/-- `serv_PUT` (`serversockets.cpp:76-101`). The position of the separator is an `unsigned`, so
`npos` becomes `2 ^ 32 - 1`. -/
def servPUT (cache : Cache.Impl) (request : HTTPRequest) :
    Except Fault (Cache.Impl × HTTPResponse) := do
  let response := HTTPResponse.new
  let head ← substr request.uri 0 5
  if head = str "/key/" then
    let sep : UInt32 := UInt32.ofNat (find request.uri 47 5)
    let key ← substr request.uri 5 (sep - 5).toNat
    let valString ← substrToEnd request.uri (sep + 1).toNat
    let (cache, rc) ← cache.set key (stringToVal valString)
    if rc < 0 then
      .ok (cache, { response with code := str "500", body := str "Failed to set element" })
    else
      .ok (cache, { response with code := str "200", body := str "Element successfully set" })
  else .ok (cache, { response with code := str "400", body := str "Bad PUT request" })

/-- `serv_DEL` (`serversockets.cpp:104-121`). -/
def servDEL (cache : Cache.Impl) (request : HTTPRequest) :
    Except Fault (Cache.Impl × HTTPResponse) := do
  let response := HTTPResponse.new
  let head ← substr request.uri 0 5
  if head = str "/key/" then
    let key ← substrToEnd request.uri 6
    let (cache, rc) ← cache.del key
    if rc = 0 then
      .ok (cache, { response with
        code := str "200", body := str "Element successfully deleted" })
    else .ok (cache, { response with code := str "500", body := str "Failed to delete" })
  else .ok (cache, { response with code := str "400", body := str "Bad DELETE request" })

/-- `serv_HEAD` (`serversockets.cpp:125-133`). -/
def servHEAD (request : HTTPRequest) : HTTPResponse :=
  let response := { HTTPResponse.new with code := str "200" }
  if request.verb = str "Watermelon" then { response with body := str "Jump for Joy!" }
  else response

/-- What a call of `recv` hands over: no more than the array holds. -/
structure Received where
  bytes : Str
  fits : bytes.length ≤ maxMessageSize

/-- The state of the server process: the global `running`, whether `shutdown` has been called on
the listening socket, and the cache. -/
structure Server where
  running : Bool
  shutRd : Bool
  cache : Cache.Impl

namespace Server

/-- The state in which the loop is entered, for the option `-m maxmem`. -/
def new (maxmem : UInt32) : Server := ⟨true, false, .new maxmem⟩

/-- `serv_POST` (`serversockets.cpp:136-145`): `shutdown(serv_socket, SHUT_RD)`. -/
def servPOST (s : Server) : Server := { s with shutRd := true }

/-- The dispatch on the verb (`serversockets.cpp:236-255`). No verb passes two of the tests, and
the response stays as constructed where none does. -/
def dispatch (s : Server) (request : HTTPRequest) : Except Fault (Server × HTTPResponse) := do
  if request.verb = str "GET" then
    let (cache, response) ← servGET s.cache request
    .ok ({ s with cache }, response)
  else if request.verb = str "PUT" then
    let (cache, response) ← servPUT s.cache request
    .ok ({ s with cache }, response)
  else if request.verb = str "DELETE" then
    let (cache, response) ← servDEL s.cache request
    .ok ({ s with cache }, response)
  else if request.verb = str "HEAD" then .ok (s, servHEAD request)
  else if request.verb = str "POST" then .ok (s.servPOST, HTTPResponse.new)
  else .ok (s, HTTPResponse.new)

/-- The body of the loop of `main` on the next message, with the reply
(`serversockets.cpp:219-260`): the bytes of `to_string()`, which `send` is taken to find behind
`string_response`. -/
def iteration (s : Server) (msg : Str) : Except Fault (Server × Str) := do
  let request ← receiveRequest msg
  let (s, response) ← s.dispatch request
  .ok (s, response.toString)

/-- The loop of `main`, with the replies, on what its calls of `recv` hand over one after the other
(`serversockets.cpp:218`). What `recv` leaves of a message is what its next call hands over, as a
message of its own. -/
def loop (s : Server) : List Str → Except Fault (Server × List Str)
  | [] => .ok (s, [])
  | msg :: msgs =>
      if s.running then do
        let (s, reply) ← s.iteration msg
        let (s, replies) ← s.loop msgs
        .ok (s, reply :: replies)
      else .ok (s, [])

/-- The states that the loop goes through, for some capacity and some messages. -/
def Reachable (s : Server) : Prop :=
  ∃ maxmem msgs replies, (new maxmem).loop msgs = .ok (s, replies)

end Server

end NetCache
