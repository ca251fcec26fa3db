import NetCache.Exchange
import NetCache.Requests

/-!
# Runs that the server serves

What holds all along a run of the server's loop on messages that are parsed and whose handlers do
not throw: nothing else goes wrong, no stored value overruns the local array of `val_to_string`
(`conversions_fit`), and every response but the count of used bytes is one that the client's
parser gives back (`replies_decodable`).
-/

namespace NetCache

open Lib Lib.Recency Cache

namespace Server

/-- Each message leaves room for a NUL and is parsed, and the handler of its request does not
throw. -/
def Serves (s : Server) : List Str → Prop
  | [] => True
  | msg :: msgs => msg.length ≤ 1023 ∧ ∃ request, receiveRequest msg = .ok request ∧
      s.dispatch request ≠ .error .outOfRange ∧
      ∀ s' response, s.dispatch request = .ok (s', response) → s'.Serves msgs

end Server

theorem plainAnswer_encodable (request : HTTPRequest) : (plainAnswer request).Encodable := by
  have hline : ∀ code body : Str, IsLine code → IsLine body →
      HTTPResponse.Encodable { HTTPResponse.new with code, body } := fun _ _ => encodable_response
  unfold plainAnswer servHEAD
  split_ifs <;> exact hline _ _ (by decide) (by decide)

/-- The response to a call, other than the count of used bytes, is encodable if the key of a `get`
is free of newline and NUL: what is stored is. -/
theorem answer_encodable {m : Entries} (hm : ∀ k b, m.lookup k = some b → FromRequest k b)
    {maxmem : UInt32} {op : Op} (hget : ∀ k, op = .get k → 10 ∉ k ∧ 0 ∉ k)
    (hused : op ≠ .spaceUsed) {response : HTTPResponse}
    (h : answer op (lruStep (wrapping maxmem) m op).2 = .ok response) : response.Encodable := by
  cases op with
  | set key val =>
    simp only [lruStep] at h
    split at h
    · cases h
      exact encodable_response (by decide) (by decide)
    · cases h
      exact encodable_response (by decide) (by decide)
  | get key =>
    cases hk : m.lookup key with
    | none =>
      simp only [lruStep, hk] at h
      cases h
      exact encodable_response (by decide) (by decide)
    | some b =>
      have hb := hm key b hk
      simp only [lruStep, hk] at h
      rw [hb.answer_get key] at h
      cases h
      exact encodable_response (by decide) (isLine_pairText (hget key rfl) hb.val)
  | del key =>
    cases h
    exact encodable_response (by decide) (by decide)
  | spaceUsed => exact absurd rfl hused

/-- A received request whose handler does not throw is answered, and the answer is encodable
unless it is the count of used bytes. -/
theorem dispatch_received {s : Server} (hs : s.Inv) {msg : Str} {request : HTTPRequest}
    (hreq : receiveRequest msg = .ok request) (hthrow : s.dispatch request ≠ .error .outOfRange) :
    ∃ s' response, s.dispatch request = .ok (s', response) ∧
      (¬ (request.verb = str "GET" ∧ request.uri = str "/memsize") → response.Encodable) := by
  obtain ⟨-, m, hm⟩ := hs
  cases hcall : call request with
  | error e =>
    apply absurd _ hthrow
    rw [dispatch_eq, perform, hcall, call_error hcall]
    rfl
  | ok op =>
    cases op with
    | none =>
      exact ⟨_, _, dispatch_of_perform (perform_none s.cache hcall),
        fun _ => plainAnswer_encodable request⟩
    | some op =>
      obtain ⟨c', hc', -⟩ := hm.toRefines.step op
      obtain ⟨response, hanswer⟩ := answer_total hm.entries s.cache.maxmem op
      refine ⟨_, response, dispatch_of_perform (perform_some hcall hc' hanswer), ?_⟩
      intro hmem
      apply answer_encodable hm.entries _ _ hanswer
      · rintro k rfl
        have hline := (uri_of_receive hreq).1
        rw [get_of_call hcall]
        refine ⟨?_, ?_⟩
        · intro h10
          exact hline.newline (List.mem_of_mem_drop h10)
        · intro h0
          exact hline.nul (List.mem_of_mem_drop h0)
      · rintro rfl
        exact hmem (spaceUsed_of_call hcall)

namespace Server

/-- The loop gets through the first messages of a served run, and serves the others. -/
theorem Serves.loop {s : Server} (hs : s.Inv) {pre post : List Str}
    (h : s.Serves (pre ++ post)) :
    ∃ s' replies, s.loop pre = .ok (s', replies) ∧ s'.Inv ∧ s'.Serves post := by
  induction pre generalizing s with
  | nil => exact ⟨s, [], rfl, hs, h⟩
  | cons msg msgs ih =>
    obtain ⟨-, request, hreq, hthrow, hnext⟩ := h
    obtain ⟨s₁, response, hdisp, -⟩ := dispatch_received hs hreq hthrow
    have hiter : s.iteration msg = .ok (s₁, response.toString) := by
      simp [iteration, hreq, hdisp]
    obtain ⟨s₂, replies, hloop, hinv, hserves⟩ :=
      ih (inv_iteration hs hiter) (hnext s₁ response hdisp)
    exact ⟨s₂, _, loop_cons hs.1 hiter hloop, hinv, hserves⟩

/-- A run that goes through is served. -/
theorem serves_of_loop {s s' : Server} {msgs replies : List Str} (hs : s.Inv)
    (hlen : ∀ msg ∈ msgs, msg.length ≤ 1023) (h : s.loop msgs = .ok (s', replies)) :
    s.Serves msgs := by
  induction msgs generalizing s replies with
  | nil => trivial
  | cons msg msgs ih =>
    rw [Server.loop, if_pos hs.1] at h
    simp only [bind_eq_ok] at h
    obtain ⟨⟨s₁, reply⟩, hiter, ⟨s₂, replies'⟩, hloop, h⟩ := h
    cases h
    have hinv := inv_iteration hs hiter
    simp only [iteration, bind_eq_ok] at hiter
    obtain ⟨request, hreq, ⟨s₃, response⟩, hdisp, hiter⟩ := hiter
    cases hiter
    refine ⟨hlen msg List.mem_cons_self, request, hreq, ?_, ?_⟩
    · rw [hdisp]
      intro hfault
      cases hfault
    · intro s'' response' hdisp'
      rw [hdisp] at hdisp'
      cases hdisp'
      exact ih hinv (fun m hm => hlen m (List.mem_cons_of_mem msg hm)) hloop

theorem serves_of_isOk {s : Server} {msgs : List Str} (hs : s.Inv)
    (hlen : ∀ msg ∈ msgs, msg.length ≤ 1023) (h : (s.loop msgs).isOk = true) :
    s.Serves msgs := by
  cases hloop : s.loop msgs with
  | error e =>
    rw [hloop] at h
    cases h
  | ok r => exact serves_of_loop hs hlen hloop

end Server

/-- What `serv_GET` gets out of a cache that requests have filled fits the local array of
`val_to_string`. -/
theorem size_of_get {c : Impl} {m : Entries} (hm : Holds FromRequest c m) {key : Str} {c' : Impl}
    {gotten : GetResult} (h : c.get key = .ok (c', gotten)) : gotten.size.toNat + 1 ≤ 1024 := by
  obtain ⟨c'', hget, -⟩ := hm.toRefines.get key
  rw [hget] at h
  cases h
  cases hk : m.lookup key with
  | none =>
    show (0 : UInt32).toNat + 1 ≤ 1024
    decide
  | some b => exact (hm.entries key b hk).size

/-- On such a cache `serv_GET` always returns. -/
theorem servGET_total {c : Impl} {m : Entries} (hm : Holds FromRequest c m)
    (request : HTTPRequest) : ∃ c' response, servGET c request = .ok (c', response) := by
  have hget : ({ request with verb := str "GET" } : HTTPRequest).verb = str "GET" := rfl
  have hverb : servGET c request = perform c { request with verb := str "GET" } :=
    servGET_eq c hget
  rw [hverb]
  cases hcall : call { request with verb := str "GET" } with
  | error e =>
    unfold call at hcall
    rw [if_pos rfl] at hcall
    split at hcall
    · cases hcall
    · split at hcall <;> cases hcall
  | ok op =>
    cases op with
    | none => exact ⟨_, _, perform_none c hcall⟩
    | some op =>
      obtain ⟨c', hc', -⟩ := hm.toRefines.step op
      obtain ⟨response, hanswer⟩ := answer_total hm.entries c.maxmem op
      exact ⟨c', response, perform_some hcall hc' hanswer⟩

/-- A served run gets through, no stored value has more than 1019 bytes, and no `val_to_string`
that `serv_GET` calls writes past its array: what it gets fits with a NUL, and it returns. -/
theorem conversions_fit (maxmem : UInt32) {msgs : List Str}
    (h : (Server.new maxmem).Serves msgs) :
    ∃ s replies, (Server.new maxmem).loop msgs = .ok (s, replies) ∧
      (∀ k b, s.cache.cacheMap.lookup k = some b → b.bytes.length ≤ 1019) ∧
      (∀ key cache gotten, s.cache.get key = .ok (cache, gotten) →
        gotten.size.toNat + 1 ≤ 1024) ∧
      ∀ request, ∃ cache response, servGET s.cache request = .ok (cache, response) := by
  rw [← List.append_nil msgs] at h
  obtain ⟨s, replies, hloop, ⟨-, m, hm⟩, -⟩ := h.loop (Server.inv_new maxmem)
  refine ⟨s, replies, hloop, ?_, ?_, servGET_total hm⟩
  · intro k b hk
    rw [hm.toRefines.lookup] at hk
    exact (hm.entries k b hk).length
  · intro key cache gotten
    exact size_of_get hm

/-- A PUT without a second slash stores its whole URI; the value is got back by the next
message. -/
theorem conversions_fit_noSlash :
    ∃ s replies, (Server.new 1024).loop [str "PUT\n/key/ab\nHTTP v1.1\n \n \n",
        str "GET\n/key/ab\nHTTP v1.1\n \n \n"] = .ok (s, replies) ∧
      (∀ k b, s.cache.cacheMap.lookup k = some b → b.bytes.length ≤ 1019) ∧
      (∀ key cache gotten, s.cache.get key = .ok (cache, gotten) →
        gotten.size.toNat + 1 ≤ 1024) ∧
      ∀ request, ∃ cache response, servGET s.cache request = .ok (cache, response) :=
  conversions_fit 1024 (Server.serves_of_isOk (Server.inv_new 1024) (by decide) (by decide))

/-- At every message of a served run, unless it asks for the count of used bytes, the client's
parser reads the response back off its text, field by field. -/
theorem replies_decodable (maxmem : UInt32) {pre : List Str} {msg : Str}
    (h : (Server.new maxmem).Serves (pre ++ [msg])) :
    ∃ s replies request s' response, (Server.new maxmem).loop pre = .ok (s, replies) ∧
      receiveRequest msg = .ok request ∧ s.dispatch request = .ok (s', response) ∧
      s.iteration msg = .ok (s', response.toString) ∧
      (¬ (request.verb = str "GET" ∧ request.uri = str "/memsize") →
        HTTPResponse.new.parseRawResponse (cString response.toString) = .ok response) := by
  obtain ⟨s, replies, hloop, hinv, -, request, hreq, hthrow, -⟩ := h.loop (Server.inv_new maxmem)
  obtain ⟨s', response, hdisp, hresp⟩ := dispatch_received hinv hreq hthrow
  refine ⟨s, replies, request, s', response, hloop, hreq, hdisp, ?_, ?_⟩
  · simp [Server.iteration, hreq, hdisp]
  · intro hmem
    exact HTTPResponse.parse_toString (hresp hmem)

/-- A PUT of an empty value, and the GET that answers with it. -/
theorem replies_decodable_empty :
    ∃ s replies request s' response,
      (Server.new 1024).loop [str "PUT\n/key/a/\nHTTP v1.1\n \n \n"] = .ok (s, replies) ∧
      receiveRequest (str "GET\n/key/a\nHTTP v1.1\n \n \n") = .ok request ∧
      s.dispatch request = .ok (s', response) ∧
      s.iteration (str "GET\n/key/a\nHTTP v1.1\n \n \n") = .ok (s', response.toString) ∧
      (¬ (request.verb = str "GET" ∧ request.uri = str "/memsize") →
        HTTPResponse.new.parseRawResponse (cString response.toString) = .ok response) :=
  replies_decodable 1024 (Server.serves_of_isOk (Server.inv_new 1024) (by decide) (by decide))

end NetCache
