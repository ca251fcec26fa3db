import NetCache.Client
import NetCache.Conversion
import NetCache.Reachable

/-!
# Exchanges between client and server

When a request and its response fit the receiving arrays and survive their codecs, one exchange
is one call of the server's cache: `set_exchange` and `get_exchange` say so for the two calls
that carry data, together with the message that is sent and the reply that comes back.
-/

namespace NetCache

open Lib Lib.Recency Cache

/-- A non-empty string with no NUL, no newline and no JSON separator in it. -/
structure Clean (s : Str) : Prop where
  ne_nil : s ≠ []
  bytes : ∀ x ∈ s, x ≠ 0 ∧ x ≠ 10 ∧ JSON.isDelimiter x = false

namespace Clean

variable {s : Str}

theorem isWord (h : Clean s) : JSON.IsWord s where
  token := ⟨h.ne_nil, fun x hx => (h.bytes x hx).2.2⟩
  nul h0 := (h.bytes 0 h0).1 rfl

theorem isLine (h : Clean s) : IsLine s where
  ne_nil := h.ne_nil
  newline h10 := (h.bytes 10 h10).2.1 rfl
  nul h0 := (h.bytes 0 h0).1 rfl

/-- What a message must not have in a key or a value. -/
theorem plain (h : Clean s) : 10 ∉ s ∧ 0 ∉ s := ⟨h.isLine.newline, h.isLine.nul⟩

end Clean

instance : DecidablePred Clean := fun s =>
  decidable_of_iff
    (s ≠ [] ∧ (s.all fun x => x != 0 && x != 10 && !JSON.isDelimiter x) = true) (by
      constructor
      · rintro ⟨hne, hall⟩
        refine ⟨hne, ?_⟩
        intro x hx
        simpa [and_assoc] using List.all_eq_true.mp hall x hx
      · intro h
        refine ⟨h.ne_nil, List.all_eq_true.mpr ?_⟩
        intro x hx
        simpa [and_assoc] using h.bytes x hx)

/-! ## One exchange -/

theorem isLine_key {t : Str} (h10 : 10 ∉ t) (h0 : 0 ∉ t) : IsLine (str "/key/" ++ t) where
  ne_nil := by simp [str]
  newline := by simp [str, h10]
  nul := by simp [str, h0]

/-- The client's requests arrive if their verb and URI do. -/
theorem encodable_request {verb uri : Str} (hverb : IsLine verb) (huri : IsLine uri) :
    HTTPRequest.Encodable { HTTPRequest.new with verb, uri } where
  verb := hverb
  uri := huri
  version := (by decide : IsLine HTTPVersion)
  headerLines := fun _ h => nomatch h
  body := (by decide : IsLine (str " "))

/-- The server's responses arrive if their code and body do. -/
theorem encodable_response {code body : Str} (hcode : IsLine code) (hbody : IsLine body) :
    HTTPResponse.Encodable { HTTPResponse.new with code, body } where
  version := (by decide : IsLine HTTPVersion)
  code := hcode
  headerLines := fun _ h => nomatch h
  body := hbody

/-- The server's responses hold no NUL but those of their code and body. -/
theorem zero_notMem_response {code body : Str} (hcode : 0 ∉ code) (hbody : 0 ∉ body) :
    0 ∉ ({ HTTPResponse.new with code, body } : HTTPResponse).toString := by
  simp [HTTPResponse.toString, HTTPResponse.new, HTTPVersion, headersAndBodyToString, str, hcode,
    hbody]

theorem length_setRequest (k v : Str) :
    (Client.setRequest k v).toString.length = k.length + v.length + 25 := by
  simp [Client.setRequest, HTTPRequest.toString, HTTPRequest.new, HTTPVersion,
    headersAndBodyToString, str]
  omega

theorem length_response (code body : Str) :
    ({ HTTPResponse.new with code, body } : HTTPResponse).toString.length =
      code.length + body.length + 14 := by
  simp [HTTPResponse.toString, HTTPResponse.new, HTTPVersion, headersAndBodyToString, str]
  omega

theorem length_pairText (k v : Str) : (JSON.pairText k v).length = k.length + v.length + 6 := by
  simp [JSON.pairText, str]
  omega

/-- A response to a short request that is short and encodable itself is the one that the client
parses. -/
theorem exchange_ok {s s' : Server} {request : HTTPRequest} {response : HTTPResponse}
    (hreq : request.Encodable) (hlen : request.toString.length < maxMessageSize)
    (hdisp : s.dispatch request = .ok (s', response)) (hresp : response.Encodable)
    (hlen' : response.toString.length < maxMessageSize) :
    s.iteration request.toString = .ok (s', response.toString) ∧
      Client.exchange s request = .ok (s', response) := by
  have hiter : s.iteration request.toString = .ok (s', response.toString) := by
    rw [Server.iteration, receiveRequest_toString hreq hlen, ok_bind, hdisp, ok_bind]
  refine ⟨hiter, ?_⟩
  simp only [Client.exchange, hiter, ok_bind, receiveResponse_toString hresp hlen']

/-- The body of a response that the client has parsed is a line. -/
theorem isLine_body_of_exchange {s s' : Server} {request : HTTPRequest} {response : HTTPResponse}
    (h : Client.exchange s request = .ok (s', response)) : IsLine response.body := by
  simp only [Client.exchange, bind_eq_ok] at h
  obtain ⟨⟨s₁, reply⟩, -, response', hresp, h⟩ := h
  cases h
  rw [receiveResponse, bind_eq_ok] at hresp
  obtain ⟨raw, hraw, hparse⟩ := hresp
  obtain ⟨mem, rfl⟩ := cString_of_receive hraw
  exact (HTTPResponse.encodable_of_parse hparse).body

/-- What `find` gives in an object parsed from a line is clean. -/
theorem clean_of_find {body : Str} (hbody : IsLine body) {result : JSON} {key val : Str}
    (hparse : JSON.new.parseString body = .ok result) (hfind : result.find key = some val) :
    Clean val := by
  rw [JSON.parseString_eq] at hparse
  cases hparse
  rcases JSON.mem_of_lookup_insertPairs hfind with hnone | ⟨-, hmem⟩
  · cases hnone
  · obtain ⟨htoken, hsub⟩ := Tokens.isToken_of_mem hmem
    refine ⟨htoken.1, ?_⟩
    intro x hx
    have hx' : x ∈ body := cString_subset _ (hsub hx)
    refine ⟨?_, ?_, htoken.2 x hx⟩
    · intro h0
      exact hbody.nul (h0 ▸ hx')
    · intro h10
      exact hbody.newline (h10 ▸ hx')

/-- The value string of a blob without a NUL that fits a request. -/
theorem valToString_of_short {k : Str} {v : Blob} (h0 : 0 ∉ v.bytes)
    (hlen : (Client.setRequest k v.bytes).toString.length < maxMessageSize) :
    valToString v = .ok v.bytes := by
  rw [length_setRequest, v.length_eq, maxMessageSize] at hlen
  rw [valToString, if_pos (by omega), cString_of_zero_notMem h0]

theorem names_setRequest (k v : Str) :
    Names (str "PUT") (k ++ 47 :: v) (Client.setRequest k v) where
  verb := rfl
  uri := by simp [Client.setRequest, str]

theorem encodable_setRequest {k v : Str} (hk : 10 ∉ k ∧ 0 ∉ k) (hv : 10 ∉ v ∧ 0 ∉ v) :
    (Client.setRequest k v).Encodable := by
  apply encodable_request (by decide)
  rw [List.append_assoc, List.append_assoc]
  apply isLine_key
  · simp [str, hk.1, hv.1]
  · simp [str, hk.2, hv.2]

/-- A URI that fits a message is far from wrapping a 32-bit position. -/
theorem length_uri_lt {k v : Str}
    (hlen : (Client.setRequest k v).toString.length < maxMessageSize) :
    (str "/key/" ++ (k ++ 47 :: v)).length < 2 ^ 32 := by
  rw [length_setRequest, maxMessageSize] at hlen
  rw [length_key, List.length_append, List.length_cons]
  omega

/-- A client `set` is one call of the server's cache, on the pair that `serv_PUT` slices. -/
theorem set_exchange {s : Server} {m : Entries} (hm : Refines s.cache m) {k : Str} {v : Blob}
    (hk : 10 ∉ k ∧ 0 ∉ k) (hv : 10 ∉ v.bytes ∧ 0 ∉ v.bytes)
    (hlen : (Client.setRequest k v.bytes).toString.length < maxMessageSize) {k₁ v₁ : Str}
    (hpair : putPair (str "/key/" ++ (k ++ 47 :: v.bytes)) = .ok (k₁, v₁)) :
    ∃ cache rc reply, s.cache.set k₁ (stringToVal v₁) = .ok (cache, rc) ∧
      SetEffect k₁ (stringToVal v₁) s.cache cache rc ∧
      Client.message (.set k v) = .ok (Client.setRequest k v.bytes).toString ∧
      s.iteration (Client.setRequest k v.bytes).toString = .ok ({ s with cache }, reply) ∧
      reply.length < maxMessageSize ∧ Client.set s k v = .ok ({ s with cache }, rc) := by
  have hval := valToString_of_short hv.2 hlen
  have hreq := encodable_setRequest hk hv
  have hcall := call_put (names_setRequest k v.bytes) hpair
  obtain ⟨cache, rc, hset, heffect⟩ := hm.set_effect k₁ (stringToVal v₁)
  have hstep : s.cache.step (.set k₁ (stringToVal v₁)) = .ok (cache, .code rc) :=
    Impl.step_eq_ok.mpr (.set hset)
  have hdisp := dispatch_of_call hcall hstep rfl
  have hmsg : Client.message (.set k v) = .ok (Client.setRequest k v.bytes).toString := by
    simp [Client.message, hval]
  cases heffect with
  | refused hfit =>
    obtain ⟨hiter, hex⟩ := exchange_ok hreq hlen hdisp
      (encodable_response (by decide) (by decide)) (by decide)
    refine ⟨s.cache, -1, _, hset, .refused hfit, hmsg, hiter, by decide, ?_⟩
    simp [Client.set, hval, hex, str]
  | stored hfit hkey hothers hkept =>
    obtain ⟨hiter, hex⟩ := exchange_ok hreq hlen hdisp
      (encodable_response (by decide) (by decide)) (by decide)
    refine ⟨cache, 0, _, hset, .stored hfit hkey hothers hkept, hmsg, hiter, by decide, ?_⟩
    simp [Client.set, hval, hex]

theorem isLine_pairText {k v : Str} (hk : 10 ∉ k ∧ 0 ∉ k) (hv : 10 ∉ v ∧ 0 ∉ v) :
    IsLine (JSON.pairText k v) where
  ne_nil := by simp [JSON.pairText, str]
  newline := by simp [JSON.pairText, str, hk.1, hv.1]
  nul := JSON.zero_notMem_pairText hk.2 hv.2

/-- A client `get` is one call of the server's cache, where what is stored under the key is
clean and was short enough to be set by a request. -/
theorem get_exchange {s : Server} {m : Entries} (hm : Refines s.cache m) {k : Str} (hk : Clean k)
    (hlen : (Client.getRequest k).toString.length < maxMessageSize)
    (hstored : ∀ b, m.lookup k = some b →
      Clean b.bytes ∧ k.length + b.bytes.length + 23 < maxMessageSize) :
    ∃ cache r reply, s.cache.get k = .ok (cache, r) ∧
      s.iteration (Client.getRequest k).toString = .ok ({ s with cache }, reply) ∧
      reply.length < maxMessageSize ∧ Client.get s k = .ok ({ s with cache }, r) := by
  obtain ⟨cache, hget, -⟩ := hm.get k
  have hcall : call (Client.getRequest k) = .ok (some (.get k)) := call_get ⟨rfl, rfl⟩
  have hstep : s.cache.step (.get k) = .ok (cache, .value (.ofEntry (m.lookup k))) :=
    Impl.step_eq_ok.mpr (.get hget)
  have hreq : (Client.getRequest k).Encodable :=
    encodable_request (by decide) (isLine_key hk.plain.1 hk.plain.2)
  cases hb : m.lookup k with
  | none =>
    rw [hb] at hget hstep
    obtain ⟨hiter, hex⟩ := exchange_ok hreq hlen (dispatch_of_call hcall hstep rfl)
      (encodable_response (by decide) (by decide)) (by decide)
    refine ⟨cache, ⟨none, 0⟩, _, hget, hiter, by decide, ?_⟩
    simp [Client.get, hex, str]
  | some b =>
    rw [hb] at hget hstep
    obtain ⟨hclean, hshort⟩ := hstored b hb
    rw [b.length_eq] at hshort
    have hsize : b.size.toNat + 1 ≤ 1024 := by
      rw [maxMessageSize] at hshort
      omega
    have hanswer := answer_hit k hsize
    rw [cString_of_zero_notMem hclean.isWord.nul] at hanswer
    have hlen' : ({ HTTPResponse.new with
        code := str "200", body := JSON.pairText k b.bytes } : HTTPResponse).toString.length <
          maxMessageSize := by
      rw [length_response, length_pairText, b.length_eq]
      have h3 : (str "200").length = 3 := rfl
      omega
    obtain ⟨hiter, hex⟩ := exchange_ok hreq hlen (dispatch_of_call hcall hstep hanswer)
      (encodable_response (by decide) (isLine_pairText hk.plain hclean.plain)) hlen'
    obtain ⟨j, hparse, hfind⟩ := JSON.find_parse_pairText hk.isWord hclean.isWord
    refine ⟨cache, _, _, hget, hiter, hlen', ?_⟩
    simp [Client.get, hex, hparse, hfind, stringToVal_bytes, GetResult.ofEntry]

end NetCache
