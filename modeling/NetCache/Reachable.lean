import NetCache.Handlers

/-!
# Reachable states of the server

What the server's loop can store, whatever messages arrive: a key and a value that were cut out
of the URI of one message. So keys have no slash, nothing stored has a newline or a NUL in it,
and every value fits the local array of `val_to_string` with room to spare. A message that is
longer than the array reaches no other state than its first bytes do (`reachable_iff_received`).
-/

namespace NetCache

open Lib Lib.Recency Cache

/-- What is true of every entry that the server's loop stores: the key has no slash, neither key
nor value has a newline or a NUL, and the value leaves room in a message for the other lines. -/
structure FromRequest (k : Str) (b : Blob) : Prop where
  slash : 47 ∉ k
  key : 10 ∉ k ∧ 0 ∉ k
  val : 10 ∉ b.bytes ∧ 0 ∉ b.bytes
  length : b.bytes.length ≤ 1019

theorem FromRequest.size {k : Str} {b : Blob} (h : FromRequest k b) :
    b.size.toNat + 1 ≤ 1024 := by
  rw [← b.length_eq]
  exact Nat.succ_le_succ (h.length.trans (by decide))

/-- Such a value is returned as it is stored. -/
theorem FromRequest.answer_get {k : Str} {b : Blob} (h : FromRequest k b) (key : Str) :
    answer (.get key) (.value (.ofEntry (some b))) =
      .ok { HTTPResponse.new with
        code := str "200", body := JSON.pairText key b.bytes } := by
  rw [answer_hit key h.size, cString_of_zero_notMem h.val.2]

/-- The URI of a received request is a line that is shorter than the other lines allow. -/
theorem uri_of_receive {msg : Str} {request : HTTPRequest}
    (h : receiveRequest msg = .ok request) : IsLine request.uri ∧ request.uri.length ≤ 1019 := by
  rw [receiveRequest, bind_eq_ok] at h
  obtain ⟨raw, hraw, hparse⟩ := h
  have hlen := length_of_receive hraw
  obtain ⟨mem, rfl⟩ := cString_of_receive hraw
  refine ⟨(HTTPRequest.encodable_of_parse hparse).uri, ?_⟩
  have htokens := Tokens.length_tokens (p := isNewline) (cString mem)
  rw [HTTPRequest.parseRawRequest_eq] at hparse
  split at hparse
  · rename_i verb uri version ts hts
    obtain ⟨p, hsplit, rfl⟩ := map_eq_ok.mp hparse
    obtain ⟨sp, rest, rfl, -, -⟩ := splitHeaders_ok.mp hsplit
    rw [hts] at htokens
    simp only [List.map_cons, List.map_append, List.sum_cons, List.sum_append, List.length_cons,
      List.length_append, maxMessageSize] at htokens hlen
    show uri.length ≤ 1019
    omega
  · cases hparse

/-- What a received request sets. -/
theorem fromRequest_of_call {msg : Str} {request : HTTPRequest}
    (h : receiveRequest msg = .ok request) {k : Str} {b : Blob}
    (hcall : call request = .ok (some (.set k b))) : FromRequest k b := by
  obtain ⟨hline, hlen⟩ := uri_of_receive h
  obtain ⟨hkey, v, hput, rfl⟩ := set_of_call hcall
  obtain ⟨k', v', hput', hslash, hk, hv, hvlen⟩ := putPair_ok hkey (by omega)
  rw [hput] at hput'
  cases hput'
  have hbytes : (stringToVal v).bytes ⊆ v := List.take_subset _ _
  have hblen : (stringToVal v).bytes.length ≤ v.length := List.length_take_le' _ _
  refine ⟨hslash, ⟨?_, ?_⟩, ⟨?_, ?_⟩, by omega⟩
  · intro h10
    exact hline.newline (hk h10)
  · intro h0
    exact hline.nul (hk h0)
  · intro h10
    exact hline.newline (hv (hbytes h10))
  · intro h0
    exact hline.nul (hv (hbytes h0))

namespace Server

/-- The loop goes on, and the cache represents some table, all of it stored by requests. -/
def Inv (s : Server) : Prop := s.running = true ∧ ∃ m, Holds FromRequest s.cache m

theorem inv_new (maxmem : UInt32) : (new maxmem).Inv := ⟨rfl, ∅, Holds.new FromRequest maxmem⟩

theorem inv_iteration {s s' : Server} {msg reply : Str} (hs : s.Inv)
    (h : s.iteration msg = .ok (s', reply)) : s'.Inv := by
  obtain ⟨hrun, m, hm⟩ := hs
  simp only [iteration, bind_eq_ok, dispatch_eq] at h
  obtain ⟨request, hreq, ⟨s₁, response⟩, hdisp, h⟩ := h
  cases h
  obtain ⟨⟨cache', response'⟩, hperf, hres⟩ := map_eq_ok.mp hdisp
  cases hres
  refine ⟨hrun, ?_⟩
  rcases perform_ok hperf with ⟨-, rfl⟩ | ⟨op, ret, hcall, hstep, -⟩
  · exact ⟨m, hm⟩
  · refine ⟨_, hm.of_step hstep ?_⟩
    intro k b hop
    exact fromRequest_of_call hreq (hop ▸ hcall)

theorem loop_cons {s s₁ s₂ : Server} {msg reply : Str} {msgs replies : List Str}
    (hrun : s.running = true) (hiter : s.iteration msg = .ok (s₁, reply))
    (hloop : s₁.loop msgs = .ok (s₂, replies)) :
    s.loop (msg :: msgs) = .ok (s₂, reply :: replies) := by
  simp only [loop, hrun, if_true, hiter, ok_bind, hloop]

/-- No message ends the loop. -/
theorem loop_eq_run {s : Server} (hs : s.Inv) (msgs : List Str) :
    s.loop msgs = Machine.run iteration s msgs := by
  induction msgs generalizing s with
  | nil => rfl
  | cons msg msgs ih =>
    unfold loop Machine.run
    rw [if_pos hs.1]
    cases h : s.iteration msg with
    | error e => rfl
    | ok r =>
      simp only [ok_bind, ih (inv_iteration hs h)]

theorem Reachable.inv {s : Server} (hs : s.Reachable) : s.Inv := by
  obtain ⟨maxmem, msgs, replies, h⟩ := hs
  rw [loop_eq_run (inv_new maxmem)] at h
  exact Machine.run_invariant (fun _ _ _ _ => inv_iteration) (inv_new maxmem) h

/-- An iteration looks at no more of a message than its `recv` hands over. -/
theorem iteration_take (s : Server) (msg : Str) :
    s.iteration (msg.take maxMessageSize) = s.iteration msg := by
  have hbuffer : recvBuffer (msg.take maxMessageSize) = recvBuffer msg := by
    rw [recvBuffer, recvBuffer, List.take_take, Nat.min_self, List.length_take]
    congr 2
    omega
  simp only [iteration, receiveRequest, receive, hbuffer]

theorem loop_take (s : Server) (msgs : List Str) :
    s.loop (msgs.map (List.take maxMessageSize)) = s.loop msgs := by
  induction msgs generalizing s with
  | nil => rfl
  | cons msg msgs ih => simp only [List.map_cons, loop, iteration_take, ih]

/-- The states that the loop goes through are those it reaches on what `recv` can hand over. -/
theorem reachable_iff_received {s : Server} : s.Reachable ↔ ∃ maxmem, ∃ msgs : List Received,
    ∃ replies, (new maxmem).loop (msgs.map Received.bytes) = .ok (s, replies) := by
  constructor
  · rintro ⟨maxmem, msgs, replies, h⟩
    refine ⟨maxmem, msgs.map fun msg => ⟨msg.take maxMessageSize, List.length_take_le _ _⟩,
      replies, ?_⟩
    rw [← loop_take] at h
    rwa [List.map_map]
  · rintro ⟨maxmem, msgs, replies, h⟩
    exact ⟨maxmem, _, replies, h⟩

end Server

end NetCache
