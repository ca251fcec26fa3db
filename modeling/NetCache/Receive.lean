import NetCache.Codec

/-!
# Receiving messages

Server and client both clear an array of `MAX_MESSAGE_SIZE` bytes, let `recv` write into it and
parse it as a C string. The server uses every token of a request unchecked, while
`JSON::parse_string` asks whether there is one; `receiveRequest_ok` says which messages the
server survives.
-/

namespace NetCache

open Lib

/-- The cleared array after `recv`, which writes at most `MAX_MESSAGE_SIZE` bytes of `msg`
(`serversockets.cpp:219-222`, `client.cc:83-84`). -/
def recvBuffer (msg : Str) : Str :=
  msg.take maxMessageSize ++ List.replicate (maxMessageSize - msg.length) 0

/-- The C string in the array. Without a NUL in it, a parser reads on past its end. -/
def receive (msg : Str) : Except Fault Str :=
  if 0 ∈ recvBuffer msg then .ok (cString (recvBuffer msg)) else .error .unterminated

/-- The request that the server reads off a message (`serversockets.cpp:232-234`). -/
def receiveRequest (msg : Str) : Except Fault HTTPRequest := do
  let raw ← receive msg
  HTTPRequest.new.parseRawRequest raw

/-- The response that the client reads off a message (`client.cc:83-86`). -/
def receiveResponse (msg : Str) : Except Fault HTTPResponse := do
  let raw ← receive msg
  HTTPResponse.new.parseRawResponse raw

theorem length_recvBuffer (msg : Str) : (recvBuffer msg).length = maxMessageSize := by
  rw [recvBuffer, List.length_append, List.length_take, List.length_replicate]
  omega

theorem recvBuffer_of_short {msg : Str} (h : msg.length < maxMessageSize) :
    recvBuffer msg = msg ++ 0 :: List.replicate (maxMessageSize - msg.length - 1) 0 := by
  obtain ⟨n, hn⟩ : ∃ n, maxMessageSize - msg.length = n + 1 :=
    ⟨_, (Nat.sub_add_cancel (by omega)).symm⟩
  rw [recvBuffer, List.take_of_length_le (Nat.le_of_lt h), hn, List.replicate_succ,
    Nat.add_sub_cancel]

/-- A message that leaves room for a NUL is read up to its own first NUL. -/
theorem receive_of_short {msg : Str} (h : msg.length < maxMessageSize) :
    receive msg = .ok (cString msg) := by
  have hmem : 0 ∈ recvBuffer msg := by
    rw [recvBuffer_of_short h]
    simp
  rw [receive, if_pos hmem, recvBuffer_of_short h, cString_append_zero]

theorem recvBuffer_of_long {msg : Str} (h : maxMessageSize ≤ msg.length) :
    recvBuffer msg = msg.take maxMessageSize := by
  rw [recvBuffer, Nat.sub_eq_zero_of_le h, List.replicate_zero, List.append_nil]

/-- A message without a NUL fills the array up, unless it is shorter. -/
theorem receive_of_long {msg : Str} (h0 : 0 ∉ msg) (h : maxMessageSize ≤ msg.length) :
    receive msg = .error .unterminated := by
  rw [receive, recvBuffer_of_long h, if_neg]
  intro hmem
  exact h0 (List.mem_of_mem_take hmem)

theorem length_lt_of_receive {msg raw : Str} (h0 : 0 ∉ msg) (h : receive msg = .ok raw) :
    msg.length < maxMessageSize := by
  by_contra hlen
  rw [receive_of_long h0 (Nat.le_of_not_lt hlen)] at h
  cases h

theorem length_lt_of_receiveRequest {msg : Str} {r : HTTPRequest} (h0 : 0 ∉ msg)
    (h : receiveRequest msg = .ok r) : msg.length < maxMessageSize := by
  rw [receiveRequest, bind_eq_ok] at h
  obtain ⟨raw, hraw, -⟩ := h
  exact length_lt_of_receive h0 hraw

theorem length_lt_of_receiveResponse {msg : Str} {r : HTTPResponse} (h0 : 0 ∉ msg)
    (h : receiveResponse msg = .ok r) : msg.length < maxMessageSize := by
  rw [receiveResponse, bind_eq_ok] at h
  obtain ⟨raw, hraw, -⟩ := h
  exact length_lt_of_receive h0 hraw

/-- What is read is shorter than the array. -/
theorem length_of_receive {msg raw : Str} (h : receive msg = .ok raw) :
    raw.length < maxMessageSize := by
  unfold receive at h
  split at h
  · rename_i hmem
    cases h
    have hle : (cString (recvBuffer msg)).length ≤ (recvBuffer msg).length :=
      (List.takeWhile_prefix _).length_le
    have hne : (cString (recvBuffer msg)).length ≠ (recvBuffer msg).length := by
      intro heq
      have hself : cString (recvBuffer msg) = recvBuffer msg :=
        (List.takeWhile_prefix _).eq_of_length heq
      apply zero_notMem_cString (recvBuffer msg)
      rwa [hself]
    rw [length_recvBuffer] at hle hne
    omega
  · cases h

theorem cString_of_receive {msg raw : Str} (h : receive msg = .ok raw) :
    ∃ mem, raw = cString mem := by
  unfold receive at h
  split at h
  · cases h
    exact ⟨_, rfl⟩
  · cases h

/-- An encodable request that leaves room for a NUL arrives. -/
theorem receiveRequest_toString {r : HTTPRequest} (h : r.Encodable)
    (hlen : r.toString.length < maxMessageSize) : receiveRequest r.toString = .ok r := by
  rw [receiveRequest, receive_of_short hlen, ok_bind, HTTPRequest.parse_toString h]

/-- An encodable response that leaves room for a NUL arrives. -/
theorem receiveResponse_toString {r : HTTPResponse} (h : r.Encodable)
    (hlen : r.toString.length < maxMessageSize) : receiveResponse r.toString = .ok r := by
  rw [receiveResponse, receive_of_short hlen, ok_bind, HTTPResponse.parse_toString h]

/-- After the three fixed lines, some line begins with a space and has a line after it. -/
def HasBodyLine (lines : List Str) : Prop :=
  ∃ i line, 3 ≤ i ∧ lines[i]? = some line ∧ line.head? = some 32 ∧ i + 1 < lines.length

theorem not_hasBodyLine (lines : List Str) (h : lines.length < 3) : ¬ HasBodyLine lines := by
  rintro ⟨i, line, hi, -, -, hlt⟩
  omega

/-- On a message of at most 1023 bytes the request parser finds every token that it uses, if and
only if the non-empty lines before the first NUL are three or more and, after those, one begins
with a space and is not the last. -/
theorem receiveRequest_ok (msg : Str) (hlen : msg.length ≤ 1023) :
    (∃ r, receiveRequest msg = .ok r) ↔ HasBodyLine (messageLines msg) := by
  have hraw : receive msg = .ok (cString msg) :=
    receive_of_short (Nat.lt_succ_of_le hlen)
  rw [receiveRequest, hraw, ok_bind, HTTPRequest.parseRawRequest_eq]
  have hlines : ∀ line ∈ messageLines msg, IsLine line := fun _ => isLine_of_mem_messageLines
  rw [← messageLines]
  rcases hmsg : messageLines msg with _ | ⟨verb, _ | ⟨uri, _ | ⟨version, ts⟩⟩⟩
  · simp [not_hasBodyLine []]
  · simp [not_hasBodyLine [verb]]
  · simp [not_hasBodyLine [verb, uri]]
  · have hts : ∀ line ∈ ts, IsLine line := fun line h => hlines line (by simp [hmsg, h])
    have hsplit : (∃ r, ((splitHeaders ts).map fun r => HTTPRequest.mk verb uri version
        (HTTPRequest.new.headerLines ++ r.1) r.2) = .ok r) ↔ ∃ r, splitHeaders ts = .ok r := by
      cases splitHeaders ts <;> simp
    rw [hsplit, splitHeaders_isOk]
    constructor
    · rintro ⟨i, line, hline, hnot, hlt⟩
      have hhead : line.head? = some 32 := by
        have := (hts line (List.mem_of_getElem? hline)).isHeader_iff
        simpa [hnot] using this
      have hlt' : i + 3 + 1 < (verb :: uri :: version :: ts).length := by
        simp only [List.length_cons]
        omega
      exact ⟨i + 3, line, by omega, by simpa using hline, hhead, hlt'⟩
    · rintro ⟨i, line, hi, hline, hhead, hlt⟩
      obtain ⟨j, rfl⟩ : ∃ j, i = j + 3 := ⟨i - 3, by omega⟩
      have hline' : ts[j]? = some line := by simpa using hline
      have hnot : HeaderScan.isHeader line = false := by
        have := (hts line (List.mem_of_getElem? hline')).isHeader_iff
        simpa [hhead] using this
      simp only [List.length_cons] at hlt
      exact ⟨j, line, hline', hnot, by omega⟩

/-- A request of the client. -/
theorem receiveRequest_ok_get :
    ∃ r, receiveRequest (str "GET\n/key/a\nHTTP v1.1\n \n \n") = .ok r :=
  (receiveRequest_ok _ (by decide)).mpr ⟨3, str " ", by decide, by decide, by decide, by decide⟩

/-- The empty message of a closed connection has no first token, and a message without a line
that begins with a space runs the header loop into a null token. -/
theorem receiveRequest_null :
    receiveRequest [] = .error .nullToken ∧
      receiveRequest (str "GET\n/key/a\nHTTP v1.1\nHost: a\n") = .error .nullToken ∧
      ¬ ∀ msg : Str, msg.length ≤ 1023 → ∃ r, receiveRequest msg = .ok r := by
  have hempty : receiveRequest [] = .error .nullToken := by
    rw [receiveRequest, receive_of_short (by decide)]
    rfl
  refine ⟨hempty, ?_, ?_⟩
  · rw [receiveRequest, receive_of_short (by decide), ok_bind, HTTPRequest.parseRawRequest_eq]
    rfl
  · intro h
    obtain ⟨r, hr⟩ := h [] (by decide)
    rw [hempty] at hr
    cases hr

end NetCache
