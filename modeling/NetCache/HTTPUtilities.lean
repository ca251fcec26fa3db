import NetCache.Basic
import NetCache.Lib.Loop
import NetCache.Lib.Tokens
import Mathlib.Data.List.AList

/-!
# The message and JSON utilities

`HTTP_utilities.hh` and `HTTP_utilities.cc`: conversions between blobs and strings, requests and
responses as line-based messages, and a flat JSON object. The parsers are `strtok` loops over a C
string; a null token that is used is a fault, as it is in the source, where no parser of messages
checks for it.
-/

namespace NetCache

open Lib

/-- `HTTP_VERSION` (`HTTP_utilities.hh:7`). -/
def HTTPVersion : Str := str "HTTP v1.1"

/-- `MAX_MESSAGE_SIZE` (`HTTP_utilities.hh:8`). -/
def maxMessageSize : Nat := 1024

/-- `val_to_string` (`HTTP_utilities.cc:4-10`): the bytes and a NUL go through a local array of
1024 bytes, and the string is what stands there before the first NUL. -/
def valToString (val : Blob) : Except Fault Str :=
  if val.size.toNat + 1 ≤ 1024 then .ok (cString val.bytes) else .error .bufferOverrun

/-- `string_to_val` (`HTTP_utilities.cc:12-18`): `size = s.length()` is an `unsigned`, and that
many bytes are copied. -/
def stringToVal (s : Str) : Blob where
  bytes := s.take (UInt32.ofNat s.length).toNat
  size := UInt32.ofNat s.length
  length_eq := by
    rw [List.length_take, UInt32.toNat_ofNat']
    exact Nat.min_eq_left (Nat.mod_le _ _)

/-- The separator of the message parsers, `"\n"`. -/
def isNewline (b : UInt8) : Bool := b == 10

/-- A `strtok` result that is used without a null check. -/
def useToken : Option Str → Except Fault Str
  | some token => .ok token
  | none => .error .nullToken

/-- The variables of the header loops: the last token, the unread text and the lines so far. -/
structure HeaderScan where
  token : Option Str
  rest : Str
  headerLines : List Str

namespace HeaderScan

/-- `(token[0] != ' ') && (token[0] != '\0')`. -/
def isHeader (token : Str) : Bool := token.headD 0 != 32 && token.headD 0 != 0

/-- The test of the header loop (`HTTP_utilities.cc:46`, `HTTP_utilities.cc:92`). -/
def more (s : HeaderScan) : Except Fault Bool := do
  let token ← useToken s.token
  .ok (isHeader token)

/-- The body of the header loop (`HTTP_utilities.cc:47-50`, `HTTP_utilities.cc:93-96`). -/
def push (s : HeaderScan) : Except Fault HeaderScan := do
  let token ← useToken s.token
  let (next, rest) := Tokens.next isNewline s.rest
  .ok { token := next, rest, headerLines := s.headerLines ++ [token] }

end HeaderScan

/-- The second half of both parsers, from the first token after the fixed lines on: the header
loop and the body (`HTTP_utilities.cc:45-54`, `HTTP_utilities.cc:90-100`). -/
def parseHeadersAndBody (headerLines : List Str) (rest : Str) :
    Except Fault (List Str × Str) := do
  let (token, rest) := Tokens.next isNewline rest
  let s ← Loop.run .outOfFuel HeaderScan.more HeaderScan.push (rest.length + 1)
    ⟨token, rest, headerLines⟩
  let (token, _) := Tokens.next isNewline s.rest
  let body ← useToken token
  .ok (s.headerLines, body)

/-- The second half of both `to_string`s: header lines, a line with one space, and the body. -/
def headersAndBodyToString (headerLines : List Str) (body : Str) : Str :=
  (headerLines.flatMap fun h => h ++ str "\n") ++ str " \n" ++ (body ++ str "\n")

/-- `HTTP_request` (`HTTP_utilities.hh:18-33`). -/
@[ext] structure HTTPRequest where
  verb : Str
  uri : Str
  version : Str
  headerLines : List Str
  body : Str
  deriving DecidableEq

namespace HTTPRequest

/-- The constructor (`HTTP_utilities.cc:21-26`). -/
def new : HTTPRequest := ⟨str " ", str " ", HTTPVersion, [], str " "⟩

/-- `parse_raw_request` on the C string `raw` (`HTTP_utilities.cc:30-56`). -/
def parseRawRequest (self : HTTPRequest) (raw : Str) : Except Fault HTTPRequest := do
  let (token, rest) := Tokens.next isNewline raw
  let verb ← useToken token
  let (token, rest) := Tokens.next isNewline rest
  let uri ← useToken token
  let (token, rest) := Tokens.next isNewline rest
  let version ← useToken token
  let (headerLines, body) ← parseHeadersAndBody self.headerLines rest
  .ok { verb, uri, version, headerLines, body }

/-- `to_string` (`HTTP_utilities.cc:58-69`). -/
def toString (r : HTTPRequest) : Str :=
  (r.verb ++ str "\n") ++ (r.uri ++ str "\n") ++ (r.version ++ str "\n") ++
    headersAndBodyToString r.headerLines r.body

end HTTPRequest

/-- `HTTP_response` (`HTTP_utilities.hh:35-48`). -/
@[ext] structure HTTPResponse where
  version : Str
  code : Str
  headerLines : List Str
  body : Str
  deriving DecidableEq

namespace HTTPResponse

/-- The constructor (`HTTP_utilities.cc:72-76`). -/
def new : HTTPResponse := ⟨HTTPVersion, str " ", [], str " "⟩

/-- `parse_raw_response` on the C string `raw` (`HTTP_utilities.cc:79-102`). -/
def parseRawResponse (self : HTTPResponse) (raw : Str) : Except Fault HTTPResponse := do
  let (token, rest) := Tokens.next isNewline raw
  let version ← useToken token
  let (token, rest) := Tokens.next isNewline rest
  let code ← useToken token
  let (headerLines, body) ← parseHeadersAndBody self.headerLines rest
  .ok { version, code, headerLines, body }

/-- `to_string` (`HTTP_utilities.cc:104-114`). -/
def toString (r : HTTPResponse) : Str :=
  (r.version ++ str "\n") ++ (r.code ++ str "\n") ++ headersAndBodyToString r.headerLines r.body

end HTTPResponse

/-- `JSON` (`HTTP_utilities.hh:50-58`). The order of the entries is the order in which the hash
map iterates. -/
structure JSON where
  kvMap : AList fun _ : Str => Str

namespace JSON

def new : JSON := ⟨∅⟩

/-- The separators of `parse_string`, `"\x7b ,:\x7d"`. -/
def isDelimiter (b : UInt8) : Bool := b == 123 || b == 32 || b == 44 || b == 58 || b == 125

/-- The variables of the loop of `parse_string`. -/
structure Scan where
  token : Option Str
  rest : Str
  k : Str
  kvMap : AList fun _ : Str => Str

/-- The test of the loop of `parse_string`, `token != nullptr`. -/
def Scan.more (s : Scan) : Except Fault Bool := .ok s.token.isSome

/-- The body of the loop of `parse_string` (`HTTP_utilities.cc:125-131`). -/
def Scan.push (s : Scan) : Except Fault Scan := do
  let token ← useToken s.token
  let (next, rest) := Tokens.next isDelimiter s.rest
  if s.k = [] then .ok { s with token := next, rest, k := token }
  else .ok { token := next, rest, k := [], kvMap := s.kvMap.insert s.k token }

/-- `parse_string` (`HTTP_utilities.cc:119-133`), which reads its argument as a C string. -/
def parseString (self : JSON) (s : Str) : Except Fault JSON := do
  let (token, rest) := Tokens.next isDelimiter (cString s)
  let s ← Loop.run .outOfFuel Scan.more Scan.push (rest.length + 1) ⟨token, rest, [], self.kvMap⟩
  .ok ⟨s.kvMap⟩

/-- `find` (`HTTP_utilities.cc:135-137`); `none` is the end iterator. -/
def find (j : JSON) (key : Str) : Option Str := j.kvMap.lookup key

/-- `to_string` (`HTTP_utilities.cc:138-151`). On the empty map the first `kv_it++` increments the
end iterator. -/
def toString (j : JSON) : Except Fault Str :=
  match j.kvMap.entries with
  | [] => .error .endIterator
  | first :: others =>
      .ok (str "\x7b " ++ (first.1 ++ str ": " ++ first.2) ++
        (others.flatMap fun kv => str ", " ++ kv.1 ++ str ":" ++ kv.2) ++ str " \x7d")

/-- `add` (`HTTP_utilities.cc:153-155`). -/
def add (j : JSON) (key : Str) (val : Blob) : Except Fault JSON := do
  let s ← valToString val
  .ok ⟨j.kvMap.insert key s⟩

end JSON

end NetCache
