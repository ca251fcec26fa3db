import NetCache.Exchange

/-!
# Where the network shows

Three calls of the client that are not calls of a local cache: the count of used bytes comes back
only if its four bytes are clean (`spaceUsed_iff`), a stored value comes back only if it is
(`get_usable_iff`), and a key with a slash is stored under another key (`set_noAlias_iff`).
-/

namespace NetCache

open Lib Lib.Recency Cache

/-! ## The count of used bytes -/

/-- The JSON that the client's `space_used` looks into holds only clean values. -/
theorem clean_of_spaceUsedJSON {s s' : Server} {result : JSON} {key val : Str}
    (h : Client.spaceUsedJSON s = .ok (s', result)) (hfind : result.find key = some val) :
    Clean val := by
  simp only [Client.spaceUsedJSON, bind_eq_ok] at h
  obtain ⟨⟨s₁, response⟩, hex, json, hjson, h⟩ := h
  cases h
  exact clean_of_find (isLine_body_of_exchange hex) hjson hfind

/-- The client's `space_used` finds four bytes under `memused` and returns the server's count
exactly if no byte of the count is 0, a newline or a JSON separator. -/
theorem spaceUsed_iff (s : Server) :
    (∃ s' result val, Client.spaceUsedJSON s = .ok (s', result) ∧
      result.find (str "memused") = some val ∧ val.length = 4 ∧
      Client.spaceUsed s = .ok (s', s.cache.spaceUsed)) ↔
      Clean (Blob.ofIndex s.cache.spaceUsed).bytes := by
  constructor
  · rintro ⟨s', result, val, hjson, hfind, hlen, hused⟩
    have hbytes : (stringToVal val).bytes = val := bytes_stringToVal (by omega)
    simp only [Client.spaceUsed, hjson, ok_bind, hfind, hbytes, bind_eq_ok] at hused
    obtain ⟨n, hn, hret⟩ := hused
    cases hret
    rw [Blob.ofIndex_of_toIndex hlen hn]
    exact clean_of_spaceUsedJSON hjson hfind
  · intro hclean
    have hkey : Clean (str "memused") := by decide
    have hcall : call Client.spaceUsedRequest = .ok (some .spaceUsed) := rfl
    have hanswer := answer_spaceUsed s.cache.spaceUsed
    rw [cString_of_zero_notMem hclean.isWord.nul] at hanswer
    obtain ⟨-, hex⟩ := exchange_ok
      (encodable_request (by decide) (by decide)) (by decide)
      (dispatch_of_call hcall rfl hanswer)
      (encodable_response (by decide) (isLine_pairText hkey.plain hclean.plain))
      (by
        rw [length_response, length_pairText]
        show 3 + (7 + 4 + 6) + 14 < 1024
        decide)
    obtain ⟨j, hparse, hfind⟩ := JSON.find_parse_pairText hkey.isWord hclean.isWord
    have hjson : Client.spaceUsedJSON s = .ok (s, j) := by
      simp only [Client.spaceUsedJSON, Client.spaceUsedRequest, hex, ok_bind, hparse]
    refine ⟨s, j, _, hjson, hfind, rfl, ?_⟩
    simp only [Client.spaceUsed, hjson, ok_bind, hfind, stringToVal_bytes, Blob.toIndex_ofIndex]

/-- On an empty cache the count is four zero bytes, and the client dereferences the end
iterator. -/
theorem spaceUsed_empty :
    (Server.new 1024).cache.spaceUsed = 0 ∧
      Client.spaceUsed (Server.new 1024) = .error .endIterator ∧
      ¬ ∀ s : Server, s.Reachable → ∃ s' result val,
        Client.spaceUsedJSON s = .ok (s', result) ∧ result.find (str "memused") = some val ∧
          val.length = 4 ∧ Client.spaceUsed s = .ok (s', s.cache.spaceUsed) := by
  have hfault : Client.spaceUsed (Server.new 1024) = .error .endIterator := rfl
  refine ⟨rfl, hfault, ?_⟩
  intro hall
  obtain ⟨s', result, val, -, -, -, hused⟩ := hall (Server.new 1024) ⟨1024, [], [], rfl⟩
  rw [hfault] at hused
  cases hused

/-! ## Values that come back -/

theorem length_getRequest (k : Str) : (Client.getRequest k).toString.length = k.length + 24 := by
  simp [Client.getRequest, HTTPRequest.toString, HTTPRequest.new, HTTPVersion,
    headersAndBodyToString, str]

theorem encodable_getRequest {k : Str} (hk : Clean k) : (Client.getRequest k).Encodable :=
  encodable_request (by decide) (isLine_key hk.plain.1 hk.plain.2)

/-- The client can use the response to a GET of `k`, under which `b` is stored: it finds `k` in
the JSON, and its `get` returns the bytes and the size of `b`. -/
structure Usable (s : Server) (k : Str) (b : Blob) (response : HTTPResponse) : Prop where
  contains : ∃ result val, JSON.new.parseString response.body = .ok result ∧
    result.find k = some val
  returns : ∃ s', Client.get s k = .ok (s', ⟨some b.bytes, b.size⟩)

/-- A `get` that returns a value has found it in the response to its request. -/
theorem find_of_get {s s' : Server} {k : Str} {val : List UInt8} {size : UInt32}
    (h : Client.get s k = .ok (s', ⟨some val, size⟩)) :
    ∃ response result value, Client.exchange s (Client.getRequest k) = .ok (s', response) ∧
      JSON.new.parseString response.body = .ok result ∧ result.find k = some value ∧
      (stringToVal value).bytes = val := by
  simp only [Client.get, bind_eq_ok] at h
  obtain ⟨⟨s₁, response⟩, hex, h⟩ := h
  split at h
  · rw [bind_eq_ok] at h
    obtain ⟨result, hparse, h⟩ := h
    split at h
    · rename_i value hfind
      cases h
      exact ⟨response, result, value, hex, hparse, hfind, rfl⟩
    · cases h
  · cases h

/-- An exchange that succeeds, on messages without a NUL, had room for both of them. -/
theorem dispatch_of_exchange {s s' s₁ : Server} {request : HTTPRequest}
    {response answered : HTTPResponse} (hreq : request.Encodable)
    (hdisp : s.dispatch request = .ok (s₁, answered)) (hresp : answered.Encodable)
    (h : Client.exchange s request = .ok (s', response)) :
    response = answered ∧ answered.toString.length < maxMessageSize := by
  have hfit : request.toString.length < maxMessageSize := by
    simp only [Client.exchange, Server.iteration, bind_eq_ok] at h
    obtain ⟨_, ⟨_, hreceived, -⟩, -⟩ := h
    exact length_lt_of_receiveRequest hreq.zero_notMem hreceived
  have hiter : s.iteration request.toString = .ok (s₁, answered.toString) := by
    rw [Server.iteration, receiveRequest_toString hreq hfit, ok_bind, hdisp, ok_bind]
  simp only [Client.exchange, hiter, ok_bind, bind_eq_ok] at h
  obtain ⟨response', hresp', h⟩ := h
  cases h
  have hfit' := length_lt_of_receiveResponse hresp.zero_notMem hresp'
  rw [receiveResponse_toString hresp hfit'] at hresp'
  exact ⟨(Except.ok.inj hresp').symm, hfit'⟩

/-- The response to a GET of `k`, under which `b` is stored. -/
def hitResponse (k : Str) (b : Blob) : HTTPResponse :=
  { HTTPResponse.new with code := str "200", body := JSON.pairText k b.bytes }

theorem length_hitResponse (k : Str) (b : Blob) :
    (hitResponse k b).toString.length = k.length + b.bytes.length + 23 := by
  have h3 : (str "200").length = 3 := rfl
  rw [hitResponse, length_response, length_pairText, h3]
  omega

theorem encodable_hitResponse {k : Str} {b : Blob} (hk : Clean k) (hb : FromRequest k b) :
    (hitResponse k b).Encodable :=
  encodable_response (by decide) (isLine_pairText hk.plain hb.val)

/-- How a GET of a key that is stored is handled. -/
theorem get_hit {s : Server} {m : Entries} (hm : Holds FromRequest s.cache m) {k : Str} {b : Blob}
    (hb : m.lookup k = some b) : ∃ cache, s.cache.get k = .ok (cache, .ofEntry (some b)) ∧
      servGET s.cache (Client.getRequest k) = .ok (cache, hitResponse k b) ∧
      s.dispatch (Client.getRequest k) = .ok ({ s with cache }, hitResponse k b) := by
  have hcall : call (Client.getRequest k) = .ok (some (.get k)) := call_get ⟨rfl, rfl⟩
  have hverb : (Client.getRequest k).verb = str "GET" := rfl
  obtain ⟨cache, hget, -⟩ := hm.toRefines.get k
  rw [hb] at hget
  have hstep : s.cache.step (.get k) = .ok (cache, .value (.ofEntry (some b))) :=
    Impl.step_eq_ok.mpr (.get hget)
  have hanswer := (hm.entries k b hb).answer_get k
  exact ⟨cache, hget, (servGET_eq s.cache hverb).trans (perform_some hcall hstep hanswer),
    dispatch_of_call hcall hstep hanswer⟩

/-- What the client gets back as it was stored is clean, and its response was short. -/
theorem clean_of_get {s s' : Server} {m : Entries} (hm : Holds FromRequest s.cache m) {k : Str}
    (hk : Clean k) {b : Blob} (hb : m.lookup k = some b)
    (h : Client.get s k = .ok (s', ⟨some b.bytes, b.size⟩)) :
    Clean b.bytes ∧ k.length + b.bytes.length + 23 < maxMessageSize := by
  obtain ⟨cache, -, -, hdisp⟩ := get_hit hm hb
  obtain ⟨response, result, value, hex, hparse, hfind, hvalue⟩ := find_of_get h
  obtain ⟨rfl, hfit⟩ := dispatch_of_exchange (encodable_getRequest hk) hdisp
    (encodable_hitResponse hk (hm.entries k b hb)) hex
  rw [length_hitResponse] at hfit
  refine ⟨?_, hfit⟩
  have hclean := clean_of_find (isLine_body_of_exchange hex) hparse hfind
  have hlen : value.length < 2 ^ 32 := by
    have hle := JSON.length_of_find hparse hfind
    rw [hitResponse, length_pairText] at hle
    rw [maxMessageSize] at hfit
    omega
  rw [← hvalue, bytes_stringToVal hlen]
  exact hclean

/-- A clean value comes back in a short response. -/
theorem usable_of_clean {s : Server} {m : Entries} (hm : Holds FromRequest s.cache m) {k : Str}
    (hk : Clean k) {b : Blob} (hb : m.lookup k = some b) (hclean : Clean b.bytes)
    (hfit : k.length + b.bytes.length + 23 < maxMessageSize) :
    Usable s k b (hitResponse k b) := by
  obtain ⟨result, hparse, hfind⟩ := JSON.find_parse_pairText hk.isWord hclean.isWord
  refine ⟨⟨result, _, hparse, hfind⟩, ?_⟩
  have hpos := List.length_pos_iff.mpr hclean.ne_nil
  have hreq : (Client.getRequest k).toString.length < maxMessageSize := by
    rw [length_getRequest]
    omega
  obtain ⟨cache, hget, -, -⟩ := get_hit hm hb
  obtain ⟨cache₁, r, reply, hget₁, -, -, hclient⟩ := get_exchange hm.toRefines hk hreq (by
    intro b' hb'
    rw [hb] at hb'
    cases hb'
    exact ⟨hclean, hfit⟩)
  rw [hget] at hget₁
  cases hget₁
  exact ⟨_, hclient⟩

/-- In every state that the loop reaches, and for every clean key that `serv_GET` answers with
200, the client can use the answer exactly if the stored value is clean too and, with the key,
leaves room for the rest of the response and a NUL. -/
theorem get_usable_iff {s : Server} (hs : s.Reachable) {k : Str} (hk : Clean k) {cache : Impl}
    {response : HTTPResponse}
    (hget : servGET s.cache (Client.getRequest k) = .ok (cache, response))
    (hcode : response.code = str "200") :
    ∃ b, s.cache.cacheMap.lookup k = some b ∧
      (Usable s k b response ↔
        Clean b.bytes ∧ k.length + b.bytes.length + 23 < maxMessageSize) := by
  obtain ⟨-, m, hm⟩ := hs.inv
  cases hb : m.lookup k with
  | none =>
    have hcall : call (Client.getRequest k) = .ok (some (.get k)) := call_get ⟨rfl, rfl⟩
    have hverb : (Client.getRequest k).verb = str "GET" := rfl
    obtain ⟨cache', hmiss, -⟩ := hm.toRefines.get k
    rw [hb] at hmiss
    have hstep : s.cache.step (.get k) = .ok (cache', .value (.ofEntry none)) :=
      Impl.step_eq_ok.mpr (.get hmiss)
    rw [servGET_eq s.cache hverb, perform_some hcall hstep rfl] at hget
    cases hget
    exact absurd hcode (by decide)
  | some b =>
    obtain ⟨cache', -, hhit, -⟩ := get_hit hm hb
    rw [hhit] at hget
    cases hget
    refine ⟨b, by rw [hm.toRefines.lookup, hb], ?_⟩
    constructor
    · rintro ⟨-, s', hclient⟩
      exact clean_of_get hm hk hb hclient
    · rintro ⟨hclean, hfit⟩
      exact usable_of_clean hm hk hb hclean hfit

/-- A value with a slash in it comes back. -/
theorem get_usable_iff_slash : ∃ s b response, s.Reachable ∧
    s.cache.cacheMap.lookup (str "a") = some b ∧ b.bytes = str "x/y" ∧
    Usable s (str "a") b response := by
  have hrun : ((Server.new 12).loop [str "PUT\n/key/a/x/y\nHTTP v1.1\n \n \n"] >>= fun r =>
      (servGET r.1.cache (Client.getRequest (str "a"))).map fun q =>
        (r.1.cache.cacheMap.lookup (str "a"), q.2.code)) =
      .ok (some (stringToVal (str "x/y")), str "200") := by decide
  obtain ⟨⟨s, replies⟩, hloop, hgot⟩ := bind_eq_ok.mp hrun
  obtain ⟨⟨cache, response⟩, hget, hgot⟩ := map_eq_ok.mp hgot
  obtain ⟨hlookup, hcode⟩ := Prod.mk.inj hgot
  have hs : s.Reachable := ⟨12, _, replies, hloop⟩
  obtain ⟨b, hb, hiff⟩ := get_usable_iff hs (k := str "a") (by decide) hget hcode
  rw [hlookup] at hb
  cases hb
  exact ⟨s, _, response, hs, hlookup, rfl, hiff.mpr ⟨by decide, by decide⟩⟩

/-- A value with a space comes back cut, and for an empty value the client dereferences the end
iterator; both GETs are answered 200. -/
theorem get_unusable :
    (∃ s s' replies, (Server.new 12).loop [str "PUT\n/key/a/x y\nHTTP v1.1\n \n \n"] =
        .ok (s, replies) ∧ s.cache.cacheMap.lookup (str "a") = some (stringToVal (str "x y")) ∧
      Client.get s (str "a") = .ok (s', ⟨some (str "x"), 1⟩)) ∧
    (∃ s replies, (Server.new 12).loop [str "PUT\n/key/a/\nHTTP v1.1\n \n \n"] =
        .ok (s, replies) ∧ Client.get s (str "a") = .error .endIterator) ∧
    ¬ ∀ s k cache response, Server.Reachable s → Clean k →
      servGET s.cache (Client.getRequest k) = .ok (cache, response) →
      response.code = str "200" →
      ∃ b, s.cache.cacheMap.lookup k = some b ∧ Usable s k b response := by
  have hspace : ((Server.new 12).loop [str "PUT\n/key/a/x y\nHTTP v1.1\n \n \n"] >>= fun r =>
      (Client.get r.1 (str "a")).map fun q => (r.1.cache.cacheMap.lookup (str "a"), q.2)) =
      .ok (some (stringToVal (str "x y")), ⟨some (str "x"), 1⟩) := by decide
  have hempty : ((Server.new 12).loop [str "PUT\n/key/a/\nHTTP v1.1\n \n \n"] >>= fun r =>
      (servGET r.1.cache (Client.getRequest (str "a"))).map fun q =>
        (q.2.code, (Client.get r.1 (str "a")).map Prod.snd)) =
      .ok (str "200", .error .endIterator) := by decide
  obtain ⟨⟨s₁, replies₁⟩, hloop₁, hgot₁⟩ := bind_eq_ok.mp hspace
  obtain ⟨⟨s₂, replies₂⟩, hloop₂, hgot₂⟩ := bind_eq_ok.mp hempty
  obtain ⟨⟨s₁', value₁⟩, hclient₁, hgot₁⟩ := map_eq_ok.mp hgot₁
  obtain ⟨hlookup₁, rfl⟩ := Prod.mk.inj hgot₁
  obtain ⟨⟨cache₂, response₂⟩, hget₂, hgot₂⟩ := map_eq_ok.mp hgot₂
  obtain ⟨hcode₂, hfault₂⟩ := Prod.mk.inj hgot₂
  have hclient₂ := map_eq_error.mp hfault₂
  refine ⟨⟨s₁, s₁', replies₁, hloop₁, hlookup₁, hclient₁⟩, ⟨s₂, replies₂, hloop₂, hclient₂⟩, ?_⟩
  intro hall
  obtain ⟨b, -, -, s', hclient⟩ := hall s₂ (str "a") cache₂ response₂
    ⟨12, _, replies₂, hloop₂⟩ (by decide) hget₂ hcode₂
  rw [hclient₂] at hclient
  cases hclient

/-! ## Keys with a slash -/

/-- What a client `set` of `k` may do: every other key keeps its value or is evicted, and none is
evicted where there is room for all. Where it returns 0 the value is stored under `k`. -/
structure NoAlias (k : Str) (v : Blob) (s s' : Server) (rc : Int) : Prop where
  others : ∀ k', k' ≠ k → s'.cache.cacheMap.lookup k' = s.cache.cacheMap.lookup k' ∨
    s'.cache.cacheMap.lookup k' = none
  kept : total (s.cache.cacheMap.erase k) + v.size.toNat ≤ s.cache.maxmem.toNat →
    ∀ k', k' ≠ k → s'.cache.cacheMap.lookup k' = s.cache.cacheMap.lookup k'
  named : rc = 0 → s'.cache.cacheMap.lookup k = some v

/-- A refused `set` leaves the server as it is. -/
theorem noAlias_refused (k : Str) (v : Blob) (s : Server) : NoAlias k v s s (-1) where
  others := fun _ _ => .inl rfl
  kept := fun _ _ _ => rfl
  named := by
    intro h
    cases h

/-- What follows the first slash. -/
def afterSlash (t : Str) : Str := (t.dropWhile (· != 47)).tail

theorem afterSlash_append {k v : Str} (hk : 47 ∉ k) : afterSlash (k ++ 47 :: v) = v := by
  have hne : ∀ x ∈ k, (x != 47) = true := by
    intro x hx
    have : x ≠ 47 := fun h47 => hk (h47 ▸ hx)
    simpa using this
  rw [afterSlash, List.dropWhile_append_of_pos hne, List.dropWhile_cons_of_neg (by simp),
    List.tail_cons]

/-- A key without a slash is set as it is. -/
theorem set_noSlash {s : Server} {m : Entries} (hm : Refines s.cache m) {k : Str} {v : Blob}
    (hk : 10 ∉ k ∧ 0 ∉ k) (hv : 10 ∉ v.bytes ∧ 0 ∉ v.bytes)
    (hlen : (Client.setRequest k v.bytes).toString.length < maxMessageSize) (hslash : 47 ∉ k) :
    ∃ s' rc, Client.set s k v = .ok (s', rc) ∧ NoAlias k v s s' rc := by
  have hpair := putPair_slash hslash (length_uri_lt hlen)
  obtain ⟨cache, rc, reply, -, heffect, -, -, -, hclient⟩ := set_exchange hm hk hv hlen hpair
  rw [stringToVal_bytes] at heffect
  refine ⟨_, rc, hclient, ?_⟩
  cases heffect with
  | refused hfit => exact noAlias_refused k v s
  | stored hfit hkey hothers hkept => exact ⟨hothers, hkept, fun _ => hkey⟩

/-- A key with a slash is cut at the first one: if the rest is small enough to be stored, it is
stored under another key. -/
theorem set_slash {s : Server} {m : Entries} (hm : Holds FromRequest s.cache m) {k₁ k₂ : Str}
    {v : Blob} (hk : 10 ∉ k₁ ++ 47 :: k₂ ∧ 0 ∉ k₁ ++ 47 :: k₂)
    (hv : 10 ∉ v.bytes ∧ 0 ∉ v.bytes)
    (hlen : (Client.setRequest (k₁ ++ 47 :: k₂) v.bytes).toString.length < maxMessageSize)
    (hk₁ : 47 ∉ k₁) :
    (∃ s' rc, Client.set s (k₁ ++ 47 :: k₂) v = .ok (s', rc) ∧
      NoAlias (k₁ ++ 47 :: k₂) v s s' rc) ↔
      s.cache.maxmem.toNat < (k₂ ++ 47 :: v.bytes).length := by
  have hsplit : k₁ ++ 47 :: k₂ ++ 47 :: v.bytes = k₁ ++ 47 :: (k₂ ++ 47 :: v.bytes) := by simp
  have hurilen := length_uri_lt hlen
  rw [hsplit] at hurilen
  have hpair := putPair_slash hk₁ hurilen
  rw [← hsplit] at hpair
  obtain ⟨cache, rc, reply, -, heffect, -, -, -, hclient⟩ :=
    set_exchange hm.toRefines hk hv hlen hpair
  have hsize : (stringToVal (k₂ ++ 47 :: v.bytes)).size.toNat = (k₂ ++ 47 :: v.bytes).length := by
    rw [← (stringToVal _).length_eq, bytes_stringToVal]
    rw [length_key, List.length_append, List.length_cons] at hurilen
    omega
  rw [← hsize]
  cases heffect with
  | refused hfit =>
    constructor
    · intro _
      rwa [UInt32.le_iff_toNat_le, Nat.not_le] at hfit
    · intro _
      exact ⟨_, _, hclient, noAlias_refused _ v s⟩
  | stored hfit hkey hothers hkept =>
    constructor
    · rintro ⟨s', rc, hclient', hno⟩
      rw [hclient] at hclient'
      cases hclient'
      -- the value would be stored under a key with a slash
      have hnamed := hno.named rfl
      have hne : k₁ ++ 47 :: k₂ ≠ k₁ := by simp
      rcases hothers _ hne with hold | hnone
      · rw [hnamed, hm.toRefines.lookup] at hold
        have hslash := (hm.entries _ _ hold.symm).slash
        simp at hslash
      · rw [hnamed] at hnone
        cases hnone
    · intro hlt
      rw [UInt32.le_iff_toNat_le] at hfit
      omega

/-- In every state that the loop reaches, a `set` of a key and a value without newline and NUL,
in a request that leaves room for a NUL, leaves all other keys alone exactly if the key has no
slash or what follows its first slash, with the value, is too large for the cache. -/
theorem set_noAlias_iff {s : Server} (hs : s.Reachable) {k : Str} {v : Blob}
    (hk : 10 ∉ k ∧ 0 ∉ k) (hv : 10 ∉ v.bytes ∧ 0 ∉ v.bytes)
    (hlen : (Client.setRequest k v.bytes).toString.length < maxMessageSize) :
    (∃ s' rc, Client.set s k v = .ok (s', rc) ∧ NoAlias k v s s' rc) ↔
      (47 ∈ k → s.cache.maxmem.toNat < (afterSlash (k ++ 47 :: v.bytes)).length) := by
  obtain ⟨-, m, hm⟩ := hs.inv
  by_cases hslash : 47 ∈ k
  · obtain ⟨k₁, k₂, rfl, hk₁⟩ := List.eq_append_cons_of_mem hslash
    rw [set_slash hm hk hv hlen hk₁, List.append_assoc, List.cons_append, afterSlash_append hk₁]
    simp
  · constructor
    · intro _ h
      exact absurd h hslash
    · intro _
      exact set_noSlash hm.toRefines hk hv hlen hslash

/-- A slash in the value does no harm, and the entry that is there before stays. -/
theorem set_noAlias_value : ∃ s replies s' rc,
    (Server.new 12).loop [str "PUT\n/key/x/y\nHTTP v1.1\n \n \n"] = .ok (s, replies) ∧
      Client.set s (str "ab") (stringToVal (str "c/d")) = .ok (s', rc) ∧
      NoAlias (str "ab") (stringToVal (str "c/d")) s s' rc ∧
      s'.cache.cacheMap.lookup (str "x") = some (stringToVal (str "y")) := by
  have hstate : ((Server.new 12).loop [str "PUT\n/key/x/y\nHTTP v1.1\n \n \n"]).map (fun r =>
      (r.1.cache.cacheMap.lookup (str "x"), total (r.1.cache.cacheMap.erase (str "ab")),
        r.1.cache.maxmem)) = .ok (some (stringToVal (str "y")), 1, 12) := by decide
  obtain ⟨⟨s, replies⟩, hloop, hstate⟩ := map_eq_ok.mp hstate
  simp only [Prod.mk.injEq] at hstate
  obtain ⟨hstored, htotal, hmax⟩ := hstate
  obtain ⟨s', rc, hset, hno⟩ := (set_noAlias_iff ⟨12, _, replies, hloop⟩ (k := str "ab")
    (v := stringToVal (str "c/d")) (by decide) (by decide) (by decide)).mpr
      fun h => absurd h (by decide)
  have hroom : total (s.cache.cacheMap.erase (str "ab")) +
      (stringToVal (str "c/d")).size.toNat ≤ s.cache.maxmem.toNat := by
    rw [htotal, hmax]
    decide
  refine ⟨s, replies, s', rc, hloop, hset, hno, ?_⟩
  rw [hno.kept hroom _ (by decide), hstored]

/-- `set("a/b", "v")` returns 0 and has stored `b/v` under `a`. -/
theorem set_slash_aliases :
    (∃ s', Client.set (Server.new 12) (str "a/b") (stringToVal (str "v")) = .ok (s', 0) ∧
      s'.cache.cacheMap.lookup (str "a") = some (stringToVal (str "b/v")) ∧
      s'.cache.cacheMap.lookup (str "a/b") = none) ∧
    ¬ ∀ (s : Server) (k : Str) (v : Blob), s.Reachable → 10 ∉ k ∧ 0 ∉ k →
      10 ∉ v.bytes ∧ 0 ∉ v.bytes →
      (Client.setRequest k v.bytes).toString.length < maxMessageSize →
      ∃ s' rc, Client.set s k v = .ok (s', rc) ∧ NoAlias k v s s' rc := by
  have hrun : (Client.set (Server.new 12) (str "a/b") (stringToVal (str "v"))).map (fun r =>
      (r.2, r.1.cache.cacheMap.lookup (str "a"), r.1.cache.cacheMap.lookup (str "a/b"))) =
      .ok (0, some (stringToVal (str "b/v")), none) := by decide
  obtain ⟨⟨s₁, rc₁⟩, hset, hstored⟩ := map_eq_ok.mp hrun
  simp only [Prod.mk.injEq] at hstored
  obtain ⟨rfl, ha, hab⟩ := hstored
  refine ⟨⟨s₁, hset, ha, hab⟩, ?_⟩
  intro hall
  obtain ⟨s', rc, hset', hno⟩ := hall (Server.new 12) (str "a/b") (stringToVal (str "v"))
    ⟨12, [], [], rfl⟩ (by decide) (by decide) (by decide)
  rw [hset] at hset'
  cases hset'
  have hnamed := hno.named rfl
  rw [hab] at hnamed
  cases hnamed

end NetCache
