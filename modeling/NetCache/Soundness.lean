import NetCache.Limits

/-!
# What the client may return

`Limits` says when the client gets back what is stored. Here nothing is assumed of keys and values.
The client's `get` may end in a fault, but what it returns comes from the value that the server has
under this very key, and null means that there is none (`get_sound`). Its `space_used` returns the
server's count or ends in a fault (`spaceUsed_sound`).
-/

namespace NetCache

open Lib Cache

/-- How a GET is handled, where nothing is stored under the key. -/
theorem get_miss {s : Server} {m : Entries} (hm : Refines s.cache m) {k : Str}
    (hk : m.lookup k = none) :
    ∃ s', s.dispatch (Client.getRequest k) = .ok (s', { HTTPResponse.new with
      code := str "404", body := str "Item not present in cache" }) := by
  obtain ⟨cache, hget, -⟩ := hm.get k
  rw [hk] at hget
  have hcall : call (Client.getRequest k) = .ok (some (.get k)) := call_get ⟨rfl, rfl⟩
  exact ⟨_, dispatch_of_call hcall (Impl.step_eq_ok.mpr (.get hget)) rfl⟩

/-- What the client receives for a key without a newline and a NUL. -/
theorem response_of_get {s s' : Server} {m : Entries} (hm : Holds FromRequest s.cache m) {k : Str}
    (hk : 10 ∉ k ∧ 0 ∉ k) {response : HTTPResponse}
    (hex : Client.exchange s (Client.getRequest k) = .ok (s', response)) :
    m.lookup k = none ∧ response.code ≠ str "200" ∨
      ∃ b, m.lookup k = some b ∧ 0 ∉ response.body ∧ response = hitResponse k b := by
  have hreq : (Client.getRequest k).Encodable :=
    encodable_request (by decide) (isLine_key hk.1 hk.2)
  cases hb : m.lookup k with
  | none =>
    obtain ⟨s₁, hdisp⟩ := get_miss hm.toRefines hb
    obtain ⟨rfl, -⟩ := dispatch_of_exchange hreq hdisp
      (encodable_response (by decide) (by decide)) hex
    exact .inl ⟨rfl, by decide⟩
  | some b =>
    obtain ⟨cache, -, -, hdisp⟩ := get_hit hm hb
    have hbody := isLine_pairText hk (hm.entries k b hb).val
    obtain ⟨rfl, -⟩ := dispatch_of_exchange hreq hdisp
      (encodable_response (by decide) hbody) hex
    exact .inr ⟨b, rfl, hbody.nul, rfl⟩

/-- What a token of a line is made of. -/
theorem plain_of_token {body k : Str} (hbody : IsLine body)
    (hk : k ∈ Tokens.tokens JSON.isDelimiter (cString body)) : 10 ∉ k ∧ 0 ∉ k := by
  obtain ⟨-, hsub⟩ := Tokens.isToken_of_mem hk
  exact ⟨fun h10 => hbody.newline (cString_subset _ (hsub h10)),
    fun h0 => hbody.nul (cString_subset _ (hsub h0))⟩

/-- A value that the client finds in the response is a token of what the server has stored. -/
theorem token_of_find {s s' : Server} {m : Entries} (hm : Holds FromRequest s.cache m) {k v : Str}
    {response : HTTPResponse} {j : JSON}
    (hex : Client.exchange s (Client.getRequest k) = .ok (s', response))
    (hcode : response.code = str "200") (hparse : JSON.new.parseString response.body = .ok j)
    (hfind : j.find k = some v) :
    ∃ b, m.lookup k = some b ∧ v ∈ Tokens.tokens JSON.isDelimiter b.bytes := by
  obtain ⟨hkey, hval⟩ := JSON.mem_tokens_of_find hparse hfind
  have hplain := plain_of_token (isLine_body_of_exchange hex) hkey
  rcases response_of_get hm hplain hex with ⟨-, hnot⟩ | ⟨b, hb, h0, rfl⟩
  · exact absurd hcode hnot
  · have htoken := (Tokens.isToken_of_mem hkey).1
    rw [cString_of_zero_notMem h0, hitResponse, JSON.tokens_pairText_token htoken] at hval
    exact ⟨b, hb, hval⟩

/-- If the client does not find the key in the server, nothing is stored under it. -/
theorem none_of_code {s s' : Server} {m : Entries} (hm : Holds FromRequest s.cache m) {k : Str}
    {response : HTTPResponse}
    (hex : Client.exchange s (Client.getRequest k) = .ok (s', response))
    (hcode : response.code ≠ str "200") : m.lookup k = none := by
  by_contra hne
  obtain ⟨b, hb⟩ := Option.ne_none_iff_exists'.mp hne
  rcases response_of_get hm (hm.entries k b hb).key hex with ⟨hnone, -⟩ | ⟨b', -, -, rfl⟩
  · exact hne hnone
  · exact hcode rfl

/-- In every state that the loop reaches, and for every key, the client's `get` ends in a fault, or
it returns null and nothing is stored under the key, or it returns a token of what is. -/
theorem get_sound {s : Server} (hs : s.Reachable) (key : Str) :
    (∃ e, Client.get s key = .error e) ∨ ∃ s' r, Client.get s key = .ok (s', r) ∧
      (r = .ofEntry none ∧ s.cache.cacheMap.lookup key = none ∨
        ∃ b v, s.cache.cacheMap.lookup key = some b ∧ r = .ofEntry (some (stringToVal v)) ∧
          v ∈ Tokens.tokens JSON.isDelimiter b.bytes) := by
  obtain ⟨-, m, hm⟩ := hs.inv
  rw [hm.toRefines.lookup]
  cases h : Client.get s key with
  | error e => exact .inl ⟨e, rfl⟩
  | ok r =>
    refine .inr ⟨r.1, r.2, rfl, ?_⟩
    simp only [Client.get, bind_eq_ok] at h
    obtain ⟨⟨s', response⟩, hex, h⟩ := h
    split at h
    · rename_i hcode
      obtain ⟨j, hparse, h⟩ := bind_eq_ok.mp h
      split at h
      · rename_i v hfind
        cases h
        obtain ⟨b, hb, hv⟩ := token_of_find hm hex hcode hparse hfind
        exact .inr ⟨b, v, hb, rfl, hv⟩
      · cases h
    · rename_i hcode
      cases h
      exact .inl ⟨rfl, none_of_code hm hex hcode⟩

/-- A key under which a value of two words is stored. -/
theorem get_sound_words : ∃ s replies,
    (Server.new 12).loop [str "PUT
/key/a/x y
HTTP v1.1
 
 
"] = .ok (s, replies) ∧
    ((∃ e, Client.get s (str "a") = .error e) ∨ ∃ s' r, Client.get s (str "a") = .ok (s', r) ∧
      (r = .ofEntry none ∧ s.cache.cacheMap.lookup (str "a") = none ∨
        ∃ b v, s.cache.cacheMap.lookup (str "a") = some b ∧
          r = .ofEntry (some (stringToVal v)) ∧
          v ∈ Tokens.tokens JSON.isDelimiter b.bytes)) := by
  have hlength : ((Server.new 12).loop [str "PUT
/key/a/x y
HTTP v1.1
 
 
"]).map
      (fun r => r.2.length) = .ok 1 := by decide
  obtain ⟨⟨s, replies⟩, hloop, -⟩ := map_eq_ok.mp hlength
  exact ⟨s, replies, hloop, get_sound ⟨12, _, replies, hloop⟩ (str "a")⟩

/-- The client parses every short response, and the body that it receives is the first line of the
one that was sent. -/
theorem receiveResponse_line {code body : Str} {c : UInt8} (hcode : IsLine code)
    (hc : isNewline c = false) (h0 : 0 ∉ c :: body)
    (hlen : ({ HTTPResponse.new with code, body := c :: body } : HTTPResponse).toString.length <
      maxMessageSize) :
    ∃ response, receiveResponse ({ HTTPResponse.new with code, body := c :: body } :
      HTTPResponse).toString = .ok response ∧ response.body <+: c :: body := by
  have hzero := zero_notMem_response hcode.nul h0
  have hversion : IsLine HTTPVersion := by decide
  have hspace : IsLine [32] := by decide
  have htext : ({ HTTPResponse.new with code, body := c :: body } : HTTPResponse).toString =
      HTTPVersion ++ 10 :: (code ++ 10 :: ([32] ++ 10 :: (c :: (body ++ [10])))) := by
    simp [HTTPResponse.toString, HTTPResponse.new, headersAndBodyToString, str]
  rw [receiveResponse, receive_of_short hlen, ok_bind, cString_of_zero_notMem hzero,
    HTTPResponse.parseRawResponse_eq, htext, tokens_line hversion, tokens_line hcode,
    tokens_line hspace]
  cases htokens : Tokens.tokens isNewline (c :: (body ++ [10])) with
  | nil =>
    have hone : Tokens.IsToken isNewline [c] := ⟨List.cons_ne_nil _ _, by simpa using hc⟩
    have hcut := Tokens.cut_of_prefix (p := isNewline) (List.prefix_append [c] (body ++ [10]))
    rw [Tokens.tokens_of_isToken hone, List.singleton_append, htokens] at hcut
    exact absurd hcut.length_le (Nat.not_succ_le_zero 0)
  | cons line ts =>
    refine ⟨_, rfl, ?_⟩
    have hmem : line ∈ Tokens.tokens isNewline (c :: (body ++ [10])) :=
      htokens ▸ List.mem_cons_self
    have hline := (Tokens.isToken_of_mem hmem).1.2
    have hbegins : line <+: (c :: body) ++ [10] := Tokens.prefix_of_head hc htokens
    rcases List.prefix_concat_iff.mp hbegins with hall | hbegins
    · have h10 := hline 10 (hall ▸ by simp)
      cases h10
    · exact hbegins

/-- Four bytes that are found in what is left of the count are the count. -/
theorem eq_of_token {n n' : UInt32} {t v : Str}
    (ht : t ∈ Tokens.tokens JSON.isDelimiter (cString (Blob.ofIndex n).bytes)) (hv : v <+: t)
    (h : Blob.toIndex (stringToVal v).bytes = .ok n') : v = (Blob.ofIndex n).bytes := by
  have hcut : cString (Blob.ofIndex n).bytes <+: (Blob.ofIndex n).bytes := List.takeWhile_prefix _
  have hfour : (Blob.ofIndex n).bytes.length = 4 := rfl
  have hlen := hcut.length_le
  have hlen₁ := Tokens.length_le_of_mem ht
  have hlen₂ := hv.length_le
  have hlen₃ := Blob.four_le_of_toIndex h
  rw [bytes_stringToVal (by omega)] at hlen₃
  rw [hv.eq_of_length_le (by omega), Tokens.eq_of_mem_of_length_le ht (by omega),
    hcut.eq_of_length_le (by omega)]

/-- The body of the response to a `space_used`. -/
def countText (n : UInt32) : Str :=
  JSON.pairText (str "memused") (cString (Blob.ofIndex n).bytes)

/-- What is found in a beginning of this body, and read as a count, is the count. -/
theorem count_of_body {n n' : UInt32} {body : Str} (hbody : body <+: countText n) {j : JSON}
    (hparse : JSON.new.parseString body = .ok j) {v : Str} (hfind : j.find (str "memused") = some v)
    (h : Blob.toIndex (stringToVal v).bytes = .ok n') : v = (Blob.ofIndex n).bytes ∧ n' = n := by
  have h0 := zero_notMem_cString (Blob.ofIndex n).bytes
  have hkey : JSON.IsWord (str "memused") := by decide
  obtain ⟨t, ht, hbegins⟩ := JSON.begins_token hkey h0 hbody hparse hfind
  obtain rfl := eq_of_token ht hbegins h
  rw [stringToVal_bytes, Blob.toIndex_ofIndex] at h
  exact ⟨rfl, (Except.ok.inj h).symm⟩

/-- The response to a `space_used`. -/
def countResponse (n : UInt32) : HTTPResponse :=
  { HTTPResponse.new with code := str "200", body := countText n }

theorem length_countResponse (n : UInt32) :
    (countResponse n).toString.length < maxMessageSize := by
  have hlen : (cString (Blob.ofIndex n).bytes).length ≤ 4 :=
    (List.takeWhile_prefix _).length_le
  rw [countResponse, length_response, countText, length_pairText]
  show 3 + (7 + (cString (Blob.ofIndex n).bytes).length + 6) + 14 < 1024
  omega

/-- How the loop answers a `space_used`. -/
theorem iteration_spaceUsed (s : Server) : s.iteration Client.spaceUsedRequest.toString =
    .ok (s, (countResponse s.cache.spaceUsed).toString) := by
  have hcall : call Client.spaceUsedRequest = .ok (some .spaceUsed) := rfl
  have hdisp := dispatch_of_call (s := s) hcall rfl (answer_spaceUsed s.cache.spaceUsed)
  have hreq : Client.spaceUsedRequest.Encodable := encodable_request (by decide) (by decide)
  rw [Server.iteration, receiveRequest_toString hreq (by decide), ok_bind, hdisp, ok_bind]
  rfl

/-- The client parses it, and the body that it receives begins the one that was sent. -/
theorem receiveResponse_count (n : UInt32) : ∃ response,
    receiveResponse (countResponse n).toString = .ok response ∧ response.body <+: countText n := by
  have h0 := zero_notMem_cString (Blob.ofIndex n).bytes
  exact receiveResponse_line (by decide) rfl (JSON.zero_notMem_pairText (by decide) h0)
    (length_countResponse n)

/-- The client's `space_used` only returns the server's count, and only where no byte of it is 0,
a newline or a JSON separator. -/
theorem spaceUsed_returns {s : Server} {r : Server × UInt32} (h : Client.spaceUsed s = .ok r) :
    r = (s, s.cache.spaceUsed) ∧ Clean (Blob.ofIndex s.cache.spaceUsed).bytes := by
  simp only [Client.spaceUsed, bind_eq_ok] at h
  obtain ⟨⟨s₁, j⟩, hjson, h⟩ := h
  have hfound := hjson
  simp only [Client.spaceUsedJSON, Client.exchange, iteration_spaceUsed, ok_bind,
    bind_eq_ok] at hjson
  obtain ⟨⟨s₂, response⟩, ⟨response', hresponse, h₃⟩, j', hparse, h₂⟩ := hjson
  cases h₃
  cases h₂
  split at h
  · rename_i v hfind
    obtain ⟨n, hn, h⟩ := bind_eq_ok.mp h
    cases h
    obtain ⟨received, hreceived, hbody⟩ := receiveResponse_count s.cache.spaceUsed
    cases hresponse.symm.trans hreceived
    obtain ⟨rfl, rfl⟩ := count_of_body hbody hparse hfind hn
    exact ⟨rfl, clean_of_spaceUsedJSON hfound hfind⟩
  · cases h

/-- The client's `space_used` returns the server's count, or it ends in a fault. -/
theorem spaceUsed_sound (s : Server) :
    (∃ e, Client.spaceUsed s = .error e) ∨ Client.spaceUsed s = .ok (s, s.cache.spaceUsed) := by
  cases h : Client.spaceUsed s with
  | error e => exact .inl ⟨e, rfl⟩
  | ok r => exact .inr (by rw [(spaceUsed_returns h).1])

end NetCache
