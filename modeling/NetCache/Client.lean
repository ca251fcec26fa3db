import NetCache.Server

/-!
# The client

The `Cache::Impl` of `client.cc`: each call of the cache interface is one exchange with the
server. A call is a step on the state of the server, since the client keeps nothing between
calls. The transport is taken to deliver each message whole. The client too sends from the
`c_str()` of a string that is destroyed by then, and the bytes sent are taken to be those of
`to_string()`.
-/

namespace NetCache.Client

open Lib

/-- The request of `get` (`client.cc:77-79`). -/
def getRequest (key : Str) : HTTPRequest :=
  { HTTPRequest.new with verb := str "GET", uri := str "/key/" ++ key }

/-- The request of `set`, for the value as a string (`client.cc:99-102`). -/
def setRequest (key valString : Str) : HTTPRequest :=
  { HTTPRequest.new with verb := str "PUT", uri := str "/key/" ++ key ++ str "/" ++ valString }

/-- The request of `del` (`client.cc:127-129`). -/
def delRequest (key : Str) : HTTPRequest :=
  { HTTPRequest.new with verb := str "DELETE", uri := str "/key/" ++ key }

/-- The request of `space_used` (`client.cc:144-146`). -/
def spaceUsedRequest : HTTPRequest :=
  { HTTPRequest.new with verb := str "GET", uri := str "/memsize" }

/-- `send` the request, `recv` the reply and parse it. -/
def exchange (s : Server) (request : HTTPRequest) : Except Fault (Server × HTTPResponse) := do
  let (s, reply) ← s.iteration request.toString
  let response ← receiveResponse reply
  .ok (s, response)

/-- `get` (`client.cc:76-96`). The iterator that `find` returns is dereferenced unchecked. -/
def get (s : Server) (key : Str) : Except Fault (Server × Cache.GetResult) := do
  let (s, response) ← exchange s (getRequest key)
  if response.code = str "200" then
    let result ← JSON.new.parseString response.body
    match result.find key with
    | some value => .ok (s, ⟨some (stringToVal value).bytes, (stringToVal value).size⟩)
    | none => .error .endIterator
  else .ok (s, ⟨none, 0⟩)

/-- `set` (`client.cc:97-125`). -/
def set (s : Server) (key : Str) (val : Blob) : Except Fault (Server × Int) := do
  let valString ← valToString val
  let (s, response) ← exchange s (setRequest key valString)
  if response.code = str "200" then .ok (s, 0) else .ok (s, -1)

/-- `del` (`client.cc:126-141`). -/
def del (s : Server) (key : Str) : Except Fault (Server × Int) := do
  let (s, response) ← exchange s (delRequest key)
  if response.code = str "200" then .ok (s, 0) else .ok (s, -1)

/-- The first part of `space_used`: the exchange and the parsed body (`client.cc:144-154`). -/
def spaceUsedJSON (s : Server) : Except Fault (Server × JSON) := do
  let (s, response) ← exchange s spaceUsedRequest
  let result ← JSON.new.parseString response.body
  .ok (s, result)

/-- `space_used` (`client.cc:143-160`). -/
def spaceUsed (s : Server) : Except Fault (Server × UInt32) := do
  let (s, result) ← spaceUsedJSON s
  match result.find (str "memused") with
  | some value => do
      let n ← Blob.toIndex (stringToVal value).bytes
      .ok (s, n)
  | none => .error .endIterator

/-- One call. -/
def step (s : Server) : Cache.Op → Except Fault (Server × Cache.Ret)
  | .set key val => do
      let (s, rc) ← set s key val
      .ok (s, .code rc)
  | .get key => do
      let (s, r) ← get s key
      .ok (s, .value r)
  | .del key => do
      let (s, rc) ← del s key
      .ok (s, .code rc)
  | .spaceUsed => do
      let (s, n) ← spaceUsed s
      .ok (s, .used n.toNat)

/-- The calls `ops`, one after the other, on a new server with capacity `maxmem`. -/
def run (maxmem : UInt32) (ops : List Cache.Op) : Except Fault (Server × List Cache.Ret) :=
  Machine.run step (Server.new maxmem) ops

/-- The bytes that a call sends. -/
def message : Cache.Op → Except Fault Str
  | .set key val => do
      let valString ← valToString val
      .ok (setRequest key valString).toString
  | .get key => .ok (getRequest key).toString
  | .del key => .ok (delRequest key).toString
  | .spaceUsed => .ok spaceUsedRequest.toString

end NetCache.Client
