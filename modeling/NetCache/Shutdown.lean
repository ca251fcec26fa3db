import NetCache.Serving

/-!
# How the loop ends

The README says that a POST of `/shutdown` turns the server off by changing the variable
`running`. `serv_POST` shuts the listening socket down instead, and nothing ever assigns to
`running`: the loop goes on with the accepted connection. What does end it, by ending the process,
is a message that the parser does not survive and a DELETE of `/key/` (`loop_ends`). So a run is
what shutting down asks for exactly if neither is in it (`shutdown_iff`).
-/

namespace NetCache

open Lib Cache

/-! ## The messages that end the loop -/

/-- The message is parsed, and its request is not a DELETE of `/key/`, whose key `serv_DEL` cuts
out past the end of the URI. -/
def Harmless (msg : Str) : Prop :=
  ∃ request, receiveRequest msg = .ok request ∧
    ¬ (request.verb = str "DELETE" ∧ request.uri = str "/key/")

/-- How a message ends the loop. -/
inductive Ends (msg : Str) : Fault → Prop
  /-- It fills the array, and no NUL stands in it. -/
  | unterminated (h : receiveRequest msg = .error .unterminated) : Ends msg .unterminated
  /-- A line is missing, and the parser uses a null token. -/
  | nullToken (h : receiveRequest msg = .error .nullToken) : Ends msg .nullToken
  /-- `serv_DEL` cuts the key out past the end of the URI. -/
  | outOfRange {request : HTTPRequest} (h : receiveRequest msg = .ok request)
      (hdel : request.verb = str "DELETE" ∧ request.uri = str "/key/") : Ends msg .outOfRange

theorem receive_error {msg : Str} {e : Fault} (h : receive msg = .error e) : e = .unterminated := by
  unfold receive at h
  split at h
  · cases h
  · cases h
    rfl

theorem splitHeaders_error {ts : List Str} {e : Fault} (h : splitHeaders ts = .error e) :
    e = .nullToken := by
  unfold splitHeaders at h
  split at h
  · cases h
  · cases h
    rfl

/-- A message that is not parsed leaves no NUL in the array or makes the parser use a null
token. -/
theorem receiveRequest_error {msg : Str} {e : Fault} (h : receiveRequest msg = .error e) :
    e = .unterminated ∨ e = .nullToken := by
  rw [receiveRequest, bind_eq_error] at h
  rcases h with h | ⟨raw, -, h⟩
  · exact .inl (receive_error h)
  · rw [HTTPRequest.parseRawRequest_eq] at h
    split at h
    · exact .inr (splitHeaders_error (map_eq_error.mp h))
    · cases h
      exact .inr rfl

/-- Slicing the URI of a received request fails for a DELETE of `/key/` alone. -/
theorem call_error_iff {msg : Str} {request : HTTPRequest}
    (hreq : receiveRequest msg = .ok request) :
    (∃ e, call request = .error e) ↔ request.verb = str "DELETE" ∧ request.uri = str "/key/" := by
  constructor
  · rintro ⟨e, h⟩
    unfold call at h
    split at h
    · split at h
      · cases h
      · split at h <;> cases h
    · split at h
      · rename_i hkey
        split at h
        · have hlen := (uri_of_receive hreq).2
          obtain ⟨k, v, hput, -⟩ := putPair_ok hkey (by omega)
          rw [hput] at h
          cases h
        · split at h
          · rename_i hdel
            refine ⟨hdel, ?_⟩
            have hcut := map_eq_error.mp h
            unfold substrToEnd at hcut
            split at hcut
            · cases hcut
            · rename_i hshort
              rw [← hkey, List.take_of_length_le (by omega)]
          · cases h
      · cases h
  · rintro ⟨hverb, huri⟩
    exact ⟨.outOfRange, by rw [call_delete (k := []) ⟨hverb, huri⟩, if_pos rfl]⟩

namespace Server

theorem iteration_error {s : Server} {msg : Str} {request : HTTPRequest} {e : Fault}
    (hreq : receiveRequest msg = .ok request) (h : perform s.cache request = .error e) :
    s.iteration msg = .error e := by
  rw [iteration, hreq, ok_bind, dispatch_eq, h]
  rfl

/-- A harmless message is answered. -/
theorem iteration_of_harmless {s : Server} (hs : s.Inv) {msg : Str} (h : Harmless msg) :
    ∃ s' reply, s.iteration msg = .ok (s', reply) := by
  obtain ⟨request, hreq, hnot⟩ := h
  have hthrow : s.dispatch request ≠ .error .outOfRange := by
    intro hdisp
    obtain ⟨-, m, hm⟩ := hs
    rw [dispatch_eq, map_eq_error, perform, bind_eq_error] at hdisp
    rcases hdisp with hcall | ⟨op, hcall, hdisp⟩
    · exact hnot ((call_error_iff hreq).mp ⟨_, hcall⟩)
    · cases op with
      | none => cases hdisp
      | some op =>
        obtain ⟨c', hc', -⟩ := hm.toRefines.step op
        obtain ⟨response, hanswer⟩ := answer_total hm.entries s.cache.maxmem op
        simp [hc', hanswer] at hdisp
  obtain ⟨s', response, hdisp, -⟩ := dispatch_received hs hreq hthrow
  exact ⟨s', _, by rw [iteration, hreq, ok_bind, hdisp, ok_bind]⟩

/-- A message that is not harmless ends the loop. -/
theorem iteration_error_of_not {s : Server} {msg : Str} (h : ¬ Harmless msg) :
    ∃ e, s.iteration msg = .error e ∧ Ends msg e := by
  cases hreq : receiveRequest msg with
  | error e =>
    have hiter : s.iteration msg = .error e := by rw [iteration, hreq, error_bind]
    rcases receiveRequest_error hreq with rfl | rfl
    · exact ⟨_, hiter, .unterminated hreq⟩
    · exact ⟨_, hiter, .nullToken hreq⟩
  | ok request =>
    have hdel : request.verb = str "DELETE" ∧ request.uri = str "/key/" := by
      by_contra hnot
      exact h ⟨request, hreq, hnot⟩
    obtain ⟨e, hcall⟩ := (call_error_iff hreq).mpr hdel
    obtain rfl := call_error hcall
    refine ⟨.outOfRange, iteration_error hreq ?_, .outOfRange hreq hdel⟩
    rw [perform, hcall, error_bind]

/-- Every message of a run that goes through is answered. -/
theorem length_replies {s s' : Server} (hs : s.Inv) {msgs replies : List Str}
    (h : s.loop msgs = .ok (s', replies)) : replies.length = msgs.length := by
  rw [loop_eq_run hs] at h
  induction msgs generalizing s replies with
  | nil =>
    cases h
    rfl
  | cons msg msgs ih =>
    obtain ⟨s₁, reply, replies', hiter, hrun, rfl⟩ := Machine.run_cons_ok.mp h
    rw [List.length_cons, List.length_cons, ih (inv_iteration hs hiter) hrun]

/-- A run on harmless messages goes through. -/
theorem loop_of_harmless {s : Server} (hs : s.Inv) {msgs : List Str}
    (h : ∀ msg ∈ msgs, Harmless msg) : ∃ s' replies, s.loop msgs = .ok (s', replies) := by
  induction msgs generalizing s with
  | nil => exact ⟨s, [], rfl⟩
  | cons msg msgs ih =>
    obtain ⟨hmsg, hmsgs⟩ := List.forall_mem_cons.mp h
    obtain ⟨s₁, reply, hiter⟩ := iteration_of_harmless hs hmsg
    obtain ⟨s', replies, hloop⟩ := ih (inv_iteration hs hiter) hmsgs
    exact ⟨s', _, loop_cons hs.1 hiter hloop⟩

/-- A message that fails after others ends the loop. -/
theorem loop_append_error {s s' : Server} (hs : s.Inv) {pre replies : List Str} {msg : Str}
    {e : Fault} (hpre : s.loop pre = .ok (s', replies)) (hmsg : s'.iteration msg = .error e)
    (post : List Str) : s.loop (pre ++ msg :: post) = .error e := by
  rw [loop_eq_run hs] at hpre ⊢
  induction pre generalizing s replies with
  | nil =>
    cases hpre
    rw [List.nil_append, Machine.run, hmsg, error_bind]
  | cons msg' pre ih =>
    obtain ⟨s₁, reply, replies', hiter, hrest, -⟩ := Machine.run_cons_ok.mp hpre
    have hrest' := ih (inv_iteration hs hiter) hrest
    simp only [List.cons_append, Machine.run, hiter, ok_bind, hrest', error_bind]

/-- A run that goes through has harmless messages. -/
theorem harmless_of_loop {s s' : Server} (hs : s.Inv) {msgs replies : List Str}
    (h : s.loop msgs = .ok (s', replies)) : ∀ msg ∈ msgs, Harmless msg := by
  rw [loop_eq_run hs] at h
  induction msgs generalizing s replies with
  | nil => exact nofun
  | cons msg msgs ih =>
    obtain ⟨s₁, reply, replies', hiter, hrest, -⟩ := Machine.run_cons_ok.mp h
    refine List.forall_mem_cons.mpr ⟨?_, ih (inv_iteration hs hiter) hrest⟩
    by_contra hnot
    obtain ⟨e, herror, -⟩ := iteration_error_of_not (s := s) hnot
    cases hiter.symm.trans herror

end Server

/-- Whatever the capacity and whatever `recv` hands over: all messages are harmless and the loop
answers each of them, or it answers those before the first that is not and ends at this one,
because the array was left without a NUL, because a line was missing, or because of a DELETE of
`/key/`. -/
theorem loop_ends (maxmem : UInt32) (msgs : List Received) :
    (∀ msg ∈ msgs, Harmless msg.bytes) ∧ (∃ s replies,
      (Server.new maxmem).loop (msgs.map Received.bytes) = .ok (s, replies) ∧
        replies.length = msgs.length) ∨
    ∃ pre msg post s replies e, msgs = pre ++ msg :: post ∧ (∀ m ∈ pre, Harmless m.bytes) ∧
      ¬ Harmless msg.bytes ∧
      (Server.new maxmem).loop (pre.map Received.bytes) = .ok (s, replies) ∧
      replies.length = pre.length ∧ s.iteration msg.bytes = .error e ∧ Ends msg.bytes e ∧
      (Server.new maxmem).loop (msgs.map Received.bytes) = .error e := by
  have hnew := Server.inv_new maxmem
  have hrun : ∀ l : List Received, (∀ m ∈ l, Harmless m.bytes) → ∃ s replies,
      (Server.new maxmem).loop (l.map Received.bytes) = .ok (s, replies) ∧
        replies.length = l.length := by
    intro l hl
    obtain ⟨s, replies, hloop⟩ := Server.loop_of_harmless hnew (List.forall_mem_map.mpr hl)
    exact ⟨s, replies, hloop, by rw [Server.length_replies hnew hloop, List.length_map]⟩
  classical
  cases hfind : msgs.find? fun m => decide (¬ Harmless m.bytes) with
  | none =>
    have hall : ∀ m ∈ msgs, Harmless m.bytes := by
      simpa [List.find?_eq_none] using hfind
    exact .inl ⟨hall, hrun msgs hall⟩
  | some msg =>
    obtain ⟨hbad, pre, post, rfl, hpre⟩ := List.find?_eq_some_iff_append.mp hfind
    have hbad : ¬ Harmless msg.bytes := of_decide_eq_true hbad
    have hpre : ∀ m ∈ pre, Harmless m.bytes := by simpa using hpre
    obtain ⟨s, replies, hloop, hlen⟩ := hrun pre hpre
    obtain ⟨e, hiter, hends⟩ := Server.iteration_error_of_not (s := s) hbad
    refine .inr ⟨pre, msg, post, s, replies, e, rfl, hpre, hbad, hloop, hlen, hiter, hends, ?_⟩
    rw [List.map_append, List.map_cons]
    exact Server.loop_append_error hnew hloop hiter _

/-- A DELETE of `/key/` between a PUT and a GET. -/
theorem loop_ends_delete :
    let msgs : List Received := [⟨str "PUT\n/key/a/b\nHTTP v1.1\n \n \n", by decide⟩,
      ⟨str "DELETE\n/key/\nHTTP v1.1\n \n \n", by decide⟩,
      ⟨str "GET\n/key/a\nHTTP v1.1\n \n \n", by decide⟩]
    ∃ pre msg post s replies e, msgs = pre ++ msg :: post ∧ (∀ m ∈ pre, Harmless m.bytes) ∧
      ¬ Harmless msg.bytes ∧ (Server.new 12).loop (pre.map Received.bytes) = .ok (s, replies) ∧
      replies.length = pre.length ∧ s.iteration msg.bytes = .error e ∧ Ends msg.bytes e ∧
      (Server.new 12).loop (msgs.map Received.bytes) = .error e := by
  intro msgs
  refine (loop_ends 12 msgs).resolve_left ?_
  rintro ⟨-, s, replies, hloop, -⟩
  have hfail : (Server.new 12).loop (msgs.map Received.bytes) = .error .outOfRange := rfl
  cases hfail.symm.trans hloop

/-! ## Shutting down -/

/-- The message is a request to shut down (`README.md:7-13`). -/
def isShutdown (msg : Str) : Bool :=
  match receiveRequest msg with
  | .ok request => request.verb == str "POST" && request.uri == str "/shutdown"
  | .error _ => false

/-- The messages up to the first request to shut down, which is included. -/
def upToShutdown : List Str → List Str
  | [] => []
  | msg :: msgs => if isShutdown msg then [msg] else msg :: upToShutdown msgs

/-- What shutting down means for a run on `msgs` that has led to the state `s`: one reply for each
message up to the first request to shut down and none for the others, the loop has ended if there
was such a request and only then, and the cache is as that request left it. -/
structure StopsAtShutdown (maxmem : UInt32) (msgs : List Str) (s : Server) (replies : List Str) :
    Prop where
  processed : replies.length = (upToShutdown msgs).length
  ended : s.running = false ↔ ∃ msg ∈ msgs, isShutdown msg = true
  frozen : ∀ s₁ replies₁, (Server.new maxmem).loop (upToShutdown msgs) = .ok (s₁, replies₁) →
    s.cache = s₁.cache

theorem upToShutdown_of_none {msgs : List Str} (h : ∀ msg ∈ msgs, isShutdown msg = false) :
    upToShutdown msgs = msgs := by
  induction msgs with
  | nil => rfl
  | cons msg msgs ih =>
    have hmsg : isShutdown msg = false := h msg List.mem_cons_self
    rw [upToShutdown, hmsg, if_neg Bool.false_ne_true,
      ih fun m hm => h m (List.mem_cons_of_mem msg hm)]

/-- A run is what shutting down asks for exactly if no message is a request to shut down and none
ends the loop. -/
theorem shutdown_iff (maxmem : UInt32) (msgs : List Received) :
    (∃ s replies, (Server.new maxmem).loop (msgs.map Received.bytes) = .ok (s, replies) ∧
      StopsAtShutdown maxmem (msgs.map Received.bytes) s replies) ↔
      ∀ msg ∈ msgs, isShutdown msg.bytes = false ∧ Harmless msg.bytes := by
  have hnew := Server.inv_new maxmem
  constructor
  · rintro ⟨s, replies, h, hstops⟩ msg hmsg
    have hmem : msg.bytes ∈ msgs.map Received.bytes := List.mem_map_of_mem hmsg
    refine ⟨?_, Server.harmless_of_loop hnew h _ hmem⟩
    have hrunning : s.running = true := (Server.Reachable.inv ⟨maxmem, _, replies, h⟩).1
    cases hshut : isShutdown msg.bytes with
    | false => rfl
    | true =>
      have hended := hstops.ended.mpr ⟨_, hmem, hshut⟩
      rw [hrunning] at hended
      cases hended
  · intro hall
    have hnone : ∀ msg ∈ msgs.map Received.bytes, isShutdown msg = false :=
      List.forall_mem_map.mpr fun msg hmsg => (hall msg hmsg).1
    have hharmless : ∀ msg ∈ msgs.map Received.bytes, Harmless msg :=
      List.forall_mem_map.mpr fun msg hmsg => (hall msg hmsg).2
    obtain ⟨s, replies, h⟩ := Server.loop_of_harmless hnew hharmless
    have hupto := upToShutdown_of_none hnone
    have hrunning : s.running = true := (Server.Reachable.inv ⟨maxmem, _, replies, h⟩).1
    refine ⟨s, replies, h, ?_, ?_, ?_⟩
    · rw [hupto, Server.length_replies hnew h]
    · constructor
      · intro hended
        rw [hrunning] at hended
        cases hended
      · rintro ⟨msg, hmsg, hshut⟩
        rw [hnone msg hmsg] at hshut
        cases hshut
    · intro s₁ replies₁ h₁
      rw [hupto, h] at h₁
      cases h₁
      rfl

/-- A run without a request to shut down. -/
theorem shutdown_iff_put : ∃ s replies,
    (Server.new 12).loop [str "PUT\n/key/a/b\nHTTP v1.1\n \n \n"] = .ok (s, replies) ∧
      StopsAtShutdown 12 [str "PUT\n/key/a/b\nHTTP v1.1\n \n \n"] s replies := by
  have hput : Harmless (str "PUT\n/key/a/b\nHTTP v1.1\n \n \n") := ⟨_, rfl, by decide⟩
  exact (shutdown_iff 12 [⟨str "PUT\n/key/a/b\nHTTP v1.1\n \n \n", by decide⟩]).mpr
    (List.forall_mem_singleton.mpr ⟨by decide, hput⟩)

/-- After a POST of `/shutdown` the loop goes on and a PUT is stored; a DELETE of `/key/` ends
it. -/
theorem shutdown_ignored :
    (∃ s replies, (Server.new 12).loop [str "POST\n/shutdown\nHTTP v1.1\n \n \n",
        str "PUT\n/key/a/b\nHTTP v1.1\n \n \n"] = .ok (s, replies) ∧
      isShutdown (str "POST\n/shutdown\nHTTP v1.1\n \n \n") = true ∧ s.running = true ∧
      replies.length = 2 ∧ s.cache.cacheMap.lookup (str "a") = some (stringToVal (str "b"))) ∧
    (Server.new 12).loop [str "DELETE\n/key/\nHTTP v1.1\n \n \n"] = .error .outOfRange ∧
    ¬ ∀ maxmem (msgs : List Received), ∃ s replies,
      (Server.new maxmem).loop (msgs.map Received.bytes) = .ok (s, replies) ∧
        StopsAtShutdown maxmem (msgs.map Received.bytes) s replies := by
  have hrun : ((Server.new 12).loop [str "POST\n/shutdown\nHTTP v1.1\n \n \n",
      str "PUT\n/key/a/b\nHTTP v1.1\n \n \n"]).map (fun r =>
        (r.1.running, r.2.length, r.1.cache.cacheMap.lookup (str "a"))) =
      .ok (true, 2, some (stringToVal (str "b"))) := by decide
  obtain ⟨⟨s, replies⟩, hloop, hstored⟩ := map_eq_ok.mp hrun
  simp only [Prod.mk.injEq] at hstored
  obtain ⟨hrunning, hlength, hstored⟩ := hstored
  refine ⟨⟨s, replies, hloop, by decide, hrunning, hlength, hstored⟩, rfl, ?_⟩
  intro hall
  obtain ⟨s', replies', hloop', hstops⟩ := hall 12
    [⟨str "POST\n/shutdown\nHTTP v1.1\n \n \n", by decide⟩,
      ⟨str "PUT\n/key/a/b\nHTTP v1.1\n \n \n", by decide⟩]
  cases hloop.symm.trans hloop'
  have hended := hstops.ended.mpr
    ⟨str "POST\n/shutdown\nHTTP v1.1\n \n \n", List.mem_cons_self, by decide⟩
  rw [hrunning] at hended
  cases hended

end NetCache
