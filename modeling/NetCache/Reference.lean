import NetCache.Freshness
import NetCache.Shutdown

/-!
# The reference server

What the server is for, in one step: a message is a call of an LRU model, and the reply is the
text of what the call returns. Whatever `recv` hands over, the loop of `main` replies and fails as
this reference does (`loop_eq_reference`). Its cache is a local cache on which the calls of the
messages have been made (`cache_of_loop`).
-/

namespace NetCache

open Lib Lib.Recency Lib.Replay Cache

/-- One message to an LRU model behind the codec, with the reply. -/
def referenceStep (A : Arithmetic) (m : Entries) (msg : Str) : Except Fault (Entries × Str) := do
  let request ← receiveRequest msg
  match ← call request with
  | some op =>
      let response ← answer op (lruStep A m op).2
      .ok ((lruStep A m op).1, response.toString)
  | none => .ok (m, (plainAnswer request).toString)

/-- The call of the cache interface that a message leads to, if any. -/
def callOf (msg : Str) : Option Op :=
  match receiveRequest msg with
  | .ok request => (call request).toOption.join
  | .error _ => none

namespace Server

theorem iteration_ok {s : Server} {msg : Str} {request : HTTPRequest} {cache : Impl}
    {response : HTTPResponse} (hreq : receiveRequest msg = .ok request)
    (h : perform s.cache request = .ok (cache, response)) :
    s.iteration msg = .ok
      ({ s with cache, shutRd := s.shutRd || request.verb == str "POST" }, response.toString) := by
  rw [iteration, hreq, ok_bind, dispatch_of_perform h, ok_bind]

/-- The server and the reference fail alike on a message or reply alike to it. -/
theorem iteration_follows {s : Server} {m : Entries} (h : Exact s.cache m) (msg : Str) :
    (∃ e, s.iteration msg = .error e ∧
      referenceStep (exact s.cache.maxmem.toNat) m msg = .error e) ∨
    ∃ s' m' reply, s.iteration msg = .ok (s', reply) ∧
      referenceStep (exact s.cache.maxmem.toNat) m msg = .ok (m', reply) ∧ Exact s'.cache m' ∧
      s'.running = s.running ∧ s'.cache.maxmem = s.cache.maxmem := by
  cases hreq : receiveRequest msg with
  | error e =>
    refine .inl ⟨e, ?_, ?_⟩
    · rw [iteration, hreq, error_bind]
    · rw [referenceStep, hreq, error_bind]
  | ok request =>
    cases hcall : call request with
    | error e =>
      refine .inl ⟨e, iteration_error hreq ?_, ?_⟩
      · rw [perform, hcall, error_bind]
      · rw [referenceStep, hreq, ok_bind, hcall, error_bind]
    | ok op =>
      cases op with
      | none =>
        refine .inr ⟨_, m, _, iteration_ok hreq (perform_none s.cache hcall), ?_, h, rfl, rfl⟩
        rw [referenceStep, hreq, ok_bind, hcall, ok_bind]
      | some op =>
        obtain ⟨c', hc', h', hmax⟩ := h.step op
        cases hanswer : answer op (lruStep (exact s.cache.maxmem.toNat) m op).2 with
        | error e =>
          refine .inl ⟨e, iteration_error hreq ?_, ?_⟩
          · simp [perform, hcall, hc', hanswer]
          · simp [referenceStep, hreq, hcall, hanswer]
        | ok response =>
          refine .inr ⟨_, _, _, iteration_ok hreq (perform_some hcall hc' hanswer), ?_, h', rfl,
            hmax⟩
          simp [referenceStep, hreq, hcall, hanswer]

theorem loop_follows {s : Server} {m : Entries} (h : Exact s.cache m) (hrun : s.running = true)
    (msgs : List Str) : (s.loop msgs).map Prod.snd =
      (Machine.run (referenceStep (exact s.cache.maxmem.toNat)) m msgs).map Prod.snd := by
  induction msgs generalizing s m with
  | nil => rfl
  | cons msg msgs ih =>
    rw [loop, if_pos hrun, Machine.run]
    rcases iteration_follows h msg with ⟨e, hs, hm⟩ | ⟨s', m', reply, hs, hm, h', hrun', hmax⟩
    · rw [hs, hm]
      rfl
    · have hrest := ih h' (hrun'.trans hrun)
      rw [hmax] at hrest
      rw [hs, hm, ok_bind, ok_bind]
      cases hl : s'.loop msgs with
      | error e =>
        rw [hl, error_map, eq_comm, map_eq_error] at hrest
        simp only [hl, hrest, error_bind, error_map]
      | ok r =>
        rw [hl, ok_map, eq_comm, map_eq_ok] at hrest
        obtain ⟨r', hr', hsnd⟩ := hrest
        simp only [hl, hr', ok_bind, ok_map, hsnd]

end Server

/-- Below capacity `2 ^ 31`, whatever `recv` hands over, the loop of `main` gives the replies of the
reference with unbounded arithmetic, or fails with the same fault. -/
theorem loop_eq_reference {maxmem : UInt32} (hsmall : maxmem.toNat < 2 ^ 31)
    (msgs : List Received) :
    ((Server.new maxmem).loop (msgs.map Received.bytes)).map Prod.snd =
      (Machine.run (referenceStep (exact maxmem.toNat)) ∅ (msgs.map Received.bytes)).map
        Prod.snd :=
  Server.loop_follows (Exact.new hsmall) rfl _

/-- A PUT, a GET and a message of one line. -/
theorem loop_eq_reference_put :
    let msgs : List Received := [⟨str "PUT\n/key/a/b\nHTTP v1.1\n \n \n", by decide⟩,
      ⟨str "GET\n/key/a\nHTTP v1.1\n \n \n", by decide⟩, ⟨str "GET\n", by decide⟩]
    ((Server.new 12).loop (msgs.map Received.bytes)).map Prod.snd = .error .nullToken :=
  (loop_eq_reference (by decide) _).trans (by decide)

/-! ## The calls of a run -/

namespace Server

theorem cache_of_iteration {s s' : Server} {msg reply : Str}
    (h : s.iteration msg = .ok (s', reply)) :
    callOf msg = none ∧ s'.cache = s.cache ∨
      ∃ op ret, callOf msg = some op ∧ s.cache.step op = .ok (s'.cache, ret) := by
  simp only [iteration, bind_eq_ok, dispatch_eq] at h
  obtain ⟨request, hreq, ⟨s₁, response⟩, hdisp, h⟩ := h
  cases h
  obtain ⟨⟨cache, response'⟩, hperf, hres⟩ := map_eq_ok.mp hdisp
  cases hres
  rcases perform_ok hperf with ⟨hcall, rfl⟩ | ⟨op, ret, hcall, hstep, -⟩
  · exact .inl ⟨by simp [callOf, hreq, hcall, Except.toOption], rfl⟩
  · exact .inr ⟨op, ret, by simp [callOf, hreq, hcall, Except.toOption], hstep⟩

theorem run_of_loop {s s' : Server} (hs : s.Inv) {msgs replies : List Str}
    (h : s.loop msgs = .ok (s', replies)) :
    ∃ rets, Machine.run Impl.step s.cache (msgs.filterMap callOf) = .ok (s'.cache, rets) := by
  rw [loop_eq_run hs] at h
  induction msgs generalizing s replies with
  | nil =>
    cases h
    exact ⟨[], rfl⟩
  | cons msg msgs ih =>
    obtain ⟨s₁, reply, replies', hiter, hrest, -⟩ := Machine.run_cons_ok.mp h
    obtain ⟨rets, hrun⟩ := ih (inv_iteration hs hiter) hrest
    rcases cache_of_iteration hiter with ⟨hcall, hcache⟩ | ⟨op, ret, hcall, hstep⟩
    · rw [List.filterMap_cons_none hcall]
      exact ⟨rets, hcache ▸ hrun⟩
    · rw [List.filterMap_cons_some hcall]
      exact ⟨ret :: rets, Machine.run_cons_ok.mpr ⟨s₁.cache, ret, rets, hstep, hrun, rfl⟩⟩

end Server

/-- The cache that a run of the loop leaves is a local cache on which the calls of the messages
have been made. -/
theorem cache_of_loop {maxmem : UInt32} {msgs replies : List Str} {s : Server}
    (h : (Server.new maxmem).loop msgs = .ok (s, replies)) :
    ∃ rets, Impl.run maxmem (msgs.filterMap callOf) = .ok (s.cache, rets) :=
  Server.run_of_loop (Server.inv_new maxmem) h

end NetCache
