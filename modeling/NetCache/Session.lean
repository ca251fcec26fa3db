import NetCache.Serving
import Mathlib.Data.List.Forall2
import Mathlib.Data.List.Infix
import Mathlib.Logic.Relation

/-!
# Sessions over a byte stream

A client and the server's loop on two byte streams, one for each direction. Neither side frames
its messages: `recv` takes what is pending, up to `MAX_MESSAGE_SIZE` bytes, and the cleared array
it writes into ends the message only if it was not filled. What is sent is the text of
`to_string()`, as in `Server` and `Client`. `Step` is one step of either party, `Paired` says that
the loop has parsed the messages as they were sent, and `paired_iff` that it has done so exactly
as long as every message was shorter than the array.
-/

namespace NetCache

open Lib Cache

namespace Client

/-- What a call makes of the response (`client.cc:87-95`, `client.cc:120-124`,
`client.cc:136-140`, `client.cc:153-159`). -/
def result : Op → HTTPResponse → Except Fault Ret
  | .set _ _, response => .ok (.code (if response.code = str "200" then 0 else -1))
  | .get key, response =>
      if response.code = str "200" then do
        let result ← JSON.new.parseString response.body
        match result.find key with
        | some value =>
            .ok (.value ⟨some (stringToVal value).bytes, (stringToVal value).size⟩)
        | none => .error .endIterator
      else .ok (.value ⟨none, 0⟩)
  | .del _, response => .ok (.code (if response.code = str "200" then 0 else -1))
  | .spaceUsed, response => do
      let result ← JSON.new.parseString response.body
      match result.find (str "memused") with
      | some value => do
          let n ← Blob.toIndex (stringToVal value).bytes
          .ok (.used n.toNat)
      | none => .error .endIterator

/-- A call is its message, the loop's answer to it, and what is made of the response. -/
theorem step_eq (s : Server) (op : Op) :
    step s op = (do
      let msg ← message op
      let (s', reply) ← s.iteration msg
      let response ← receiveResponse reply
      let ret ← result op response
      .ok (s', ret)) := by
  cases op with
  | set key val =>
    simp only [step, set, message, exchange, result, bind_assoc, ok_bind]
    apply bind_congr
    intro valString
    apply bind_congr
    intro r
    apply bind_congr
    intro response
    split <;> rfl
  | get key =>
    simp only [step, get, message, exchange, result, bind_assoc, ok_bind]
    apply bind_congr
    intro r
    apply bind_congr
    intro response
    split
    · simp only [bind_assoc]
      apply bind_congr
      intro json
      cases json.find key <;> rfl
    · rfl
  | del key =>
    simp only [step, del, message, exchange, result, bind_assoc, ok_bind]
    apply bind_congr
    intro r
    apply bind_congr
    intro response
    split <;> rfl
  | spaceUsed =>
    simp only [step, spaceUsed, spaceUsedJSON, message, exchange, result, bind_assoc, ok_bind]
    apply bind_congr
    intro r
    apply bind_congr
    intro response
    apply bind_congr
    intro json
    cases json.find (str "memused") with
    | none => rfl
    | some value =>
      simp only [bind_assoc, ok_bind]

end Client

/-- The two parties, what is pending on the two streams, the message that the loop has received
and not yet answered, the call that waits for its reply, and, to speak of a whole session, the
messages that were sent and the arrays that the loop has handed to `parse_raw_request`. -/
structure Session where
  server : Server
  toServer : Str
  toClient : Str
  held : Option Str
  waiting : Option Op
  sent : List Str
  handed : List Str

namespace Session

/-- A new connection, once the client has read the greeting. -/
def start (maxmem : UInt32) : Session := ⟨.new maxmem, [], [], none, none, [], []⟩

/-- One step of either party. A party that runs into a fault makes no further step. -/
inductive Step : Session → Session → Prop
  /-- The client begins a call and sends its message. -/
  | call {st : Session} {op : Op} {msg : Str} (hidle : st.waiting = none)
      (hmsg : Client.message op = .ok msg) :
      Step st { st with
        waiting := some op, toServer := st.toServer ++ msg, sent := st.sent ++ [msg] }
  /-- The loop receives what is pending and hands the array to the parser. -/
  | recv {st : Session} (hrunning : st.server.running = true) (hfree : st.held = none)
      (hpending : st.toServer ≠ []) :
      Step st { st with
        held := some (st.toServer.take maxMessageSize)
        toServer := st.toServer.drop maxMessageSize
        handed := st.handed ++ [recvBuffer (st.toServer.take maxMessageSize)] }
  /-- The loop sends its reply. -/
  | answer {st : Session} {msg reply : Str} {server : Server} (hheld : st.held = some msg)
      (hiter : st.server.iteration msg = .ok (server, reply)) :
      Step st { st with server, held := none, toClient := st.toClient ++ reply }
  /-- The client receives what is pending, and the call returns. -/
  | finish {st : Session} {op : Op} {response : HTTPResponse} {ret : Ret}
      (hwaiting : st.waiting = some op) (hpending : st.toClient ≠ [])
      (hresponse : receiveResponse (st.toClient.take maxMessageSize) = .ok response)
      (hresult : Client.result op response = .ok ret) :
      Step st { st with waiting := none, toClient := st.toClient.drop maxMessageSize }

/-- The states of the sessions with a server of capacity `maxmem`. -/
def Reachable (maxmem : UInt32) (st : Session) : Prop :=
  Relation.ReflTransGen Step (start maxmem) st

/-- The array holds the message and, behind it, a NUL. -/
def Carries (buffer msg : Str) : Prop := ∃ rest, buffer = msg ++ 0 :: rest

/-- Each array handed to the parser carries the message sent in its place, and there are no more
arrays than messages. -/
def Paired (st : Session) : Prop :=
  List.Forall₂ Carries st.handed (st.sent.take st.handed.length)

/-- Each message that the loop has come to leaves room for a NUL. -/
def Short (st : Session) : Prop :=
  ∀ msg ∈ st.sent.take st.handed.length, msg.length < maxMessageSize

instance : DecidablePred Short := fun st =>
  inferInstanceAs (Decidable (∀ msg ∈ st.sent.take st.handed.length, msg.length < maxMessageSize))

theorem paired_of_forall₂ {st : Session} (h : List.Forall₂ Carries st.handed st.sent) :
    Paired st := by
  rw [Paired, List.take_of_length_le (Nat.le_of_eq h.length_eq.symm)]
  exact h

/-- No reply has a NUL in it. -/
theorem zero_notMem_reply {s s' : Server} (hs : s.Inv) {msg reply : Str}
    (h : s.iteration msg = .ok (s', reply)) : 0 ∉ reply := by
  simp only [Server.iteration, bind_eq_ok] at h
  obtain ⟨request, hreq, ⟨s₁, response⟩, hdisp, h⟩ := h
  cases h
  by_cases hmem : request.verb = str "GET" ∧ request.uri = str "/memsize"
  · obtain ⟨hverb, huri⟩ := hmem
    have hcall : call request = .ok (some .spaceUsed) := by
      rw [call, if_pos hverb, if_pos huri]
    rw [dispatch_of_call hcall rfl (answer_spaceUsed s.cache.spaceUsed)] at hdisp
    cases hdisp
    exact zero_notMem_response (by decide)
      (JSON.zero_notMem_pairText (by decide) (zero_notMem_cString _))
  · obtain ⟨s₂, response₂, hdisp₂, hresp⟩ := dispatch_received hs hreq (by
      rw [hdisp]
      intro hfault
      cases hfault)
    rw [hdisp] at hdisp₂
    cases hdisp₂
    exact (hresp hmem).zero_notMem

/-- Where a session stands in which every array carried its message: between two calls, or with
the only bytes on the way in one of three places. -/
inductive Phase (st : Session) : Prop
  | idle (hwaiting : st.waiting = none) (hheld : st.held = none) (hin : st.toServer = [])
      (hout : st.toClient = []) (hpairs : List.Forall₂ Carries st.handed st.sent)
  | sent {before : List Str} (hwaiting : st.waiting ≠ none) (hheld : st.held = none)
      (hout : st.toClient = []) (hsent : st.sent = before ++ [st.toServer])
      (hpairs : List.Forall₂ Carries st.handed before)
  | held (hwaiting : st.waiting ≠ none) (hheld : st.held ≠ none) (hin : st.toServer = [])
      (hout : st.toClient = []) (hpairs : List.Forall₂ Carries st.handed st.sent)
  | replied (hwaiting : st.waiting ≠ none) (hheld : st.held = none) (hin : st.toServer = [])
      (hout : 0 ∉ st.toClient) (hpairs : List.Forall₂ Carries st.handed st.sent)

theorem Phase.paired {st : Session} (h : Phase st) : Paired st := by
  cases h with
  | idle hwaiting hheld hin hout hpairs => exact paired_of_forall₂ hpairs
  | sent hwaiting hheld hout hsent hpairs =>
    rw [Paired, hsent, hpairs.length_eq, List.take_left]
    exact hpairs
  | held hwaiting hheld hin hout hpairs => exact paired_of_forall₂ hpairs
  | replied hwaiting hheld hin hout hpairs => exact paired_of_forall₂ hpairs

/-- A step leads from one place to the next, if a message that is received then is short. -/
theorem Phase.step {st st' : Session} (h : Phase st) (hinv : st.server.Inv)
    (hstep : Step st st') (hshort : Short st') : Phase st' := by
  cases hstep with
  | call hidle hmsg =>
    cases h with
    | idle hwaiting hheld hin hout hpairs =>
      refine .sent (Option.some_ne_none _) hheld hout ?_ hpairs
      rw [hin, List.nil_append]
    | sent hwaiting => exact absurd hidle hwaiting
    | held hwaiting => exact absurd hidle hwaiting
    | replied hwaiting => exact absurd hidle hwaiting
  | recv hrunning hfree hpending =>
    cases h with
    | idle hwaiting hheld hin => exact absurd hin hpending
    | sent hwaiting hheld hout hsent hpairs =>
      have hlen : st.toServer.length < maxMessageSize := by
        apply hshort
        simp only [hsent, List.length_append, hpairs.length_eq, List.length_singleton]
        rw [List.take_of_length_le (by simp)]
        simp
      refine .held hwaiting (Option.some_ne_none _) (List.drop_of_length_le hlen.le) hout ?_
      rw [List.take_of_length_le hlen.le, hsent]
      exact List.rel_append hpairs (.cons ⟨_, recvBuffer_of_short hlen⟩ .nil)
    | held hwaiting hheld => exact absurd hfree hheld
    | replied hwaiting hheld hin => exact absurd hin hpending
  | answer hheld' hiter =>
    have hsome : st.held ≠ none := by simp [hheld']
    cases h with
    | idle hwaiting hheld => exact absurd hheld hsome
    | sent hwaiting hheld => exact absurd hheld hsome
    | held hwaiting hheld hin hout hpairs =>
      refine .replied hwaiting rfl hin ?_ hpairs
      rw [hout, List.nil_append]
      exact zero_notMem_reply hinv hiter
    | replied hwaiting hheld => exact absurd hheld hsome
  | finish hwaiting' hpending hresponse hresult =>
    cases h with
    | idle hwaiting hheld hin hout => exact absurd hout hpending
    | sent hwaiting hheld hout => exact absurd hout hpending
    | held hwaiting hheld hin hout => exact absurd hout hpending
    | replied hwaiting hheld hin hout hpairs =>
      -- a reply that filled the client's array would have left it without a NUL
      have hlen : st.toClient.length < maxMessageSize := by
        have htake := length_lt_of_receiveResponse (fun h0 => hout (List.mem_of_mem_take h0))
          hresponse
        rw [List.length_take] at htake
        omega
      exact .idle rfl hheld hin (List.drop_of_length_le hlen.le) hpairs

/-- A session goes on from messages that the loop has come to, and it comes to more of them. -/
theorem Step.short {st st' : Session} (h : Step st st') (hshort : Short st') : Short st := by
  have hmore : st.sent <+: st'.sent ∧ st.handed.length ≤ st'.handed.length := by
    cases h with
    | call hidle hmsg => exact ⟨List.prefix_append _ _, le_rfl⟩
    | recv hrunning hfree hpending => exact ⟨List.prefix_rfl, by simp⟩
    | answer hheld hiter => exact ⟨List.prefix_rfl, le_rfl⟩
    | finish hwaiting hpending hresponse hresult => exact ⟨List.prefix_rfl, le_rfl⟩
  obtain ⟨hsent, hhanded⟩ := hmore
  intro msg hmsg
  apply hshort
  exact (List.take_prefix_take_left hhanded).subset ((List.IsPrefix.take hsent _).subset hmsg)

/-- What holds all along a session. -/
structure Inv (st : Session) : Prop where
  server : st.server.Inv
  arrays : ∀ buffer ∈ st.handed, buffer.length = maxMessageSize
  phase : Short st → Phase st

theorem inv_start (maxmem : UInt32) : Inv (start maxmem) where
  server := Server.inv_new maxmem
  arrays _ h := nomatch h
  phase _ := .idle rfl rfl rfl rfl .nil

theorem inv_step {st st' : Session} (hst : Inv st) (h : Step st st') : Inv st' := by
  refine ⟨?_, ?_, ?_⟩
  · cases h with
    | call hidle hmsg => exact hst.server
    | recv hrunning hfree hpending => exact hst.server
    | answer hheld hiter => exact Server.inv_iteration hst.server hiter
    | finish hwaiting hpending hresponse hresult => exact hst.server
  · cases h with
    | call hidle hmsg => exact hst.arrays
    | recv hrunning hfree hpending =>
      intro buffer hbuffer
      rcases List.mem_append.mp hbuffer with hold | hnew
      · exact hst.arrays buffer hold
      · rw [List.mem_singleton.mp hnew]
        exact length_recvBuffer _
    | answer hheld hiter => exact hst.arrays
    | finish hwaiting hpending hresponse hresult => exact hst.arrays
  · intro hshort
    exact (hst.phase (h.short hshort)).step hst.server h hshort

theorem Reachable.inv {maxmem : UInt32} {st : Session} (h : Reachable maxmem st) : Inv st := by
  induction h with
  | refl => exact inv_start maxmem
  | tail _ hstep ih => exact inv_step ih hstep

/-- An array carries only a message that is shorter than it. -/
theorem length_lt_of_carries {buffers msgs : List Str} (h : List.Forall₂ Carries buffers msgs)
    (hbuffers : ∀ buffer ∈ buffers, buffer.length = maxMessageSize) :
    ∀ msg ∈ msgs, msg.length < maxMessageSize := by
  induction h with
  | nil => exact fun _ hmsg => nomatch hmsg
  | @cons buffer msg buffers msgs hcarries _ ih =>
    obtain ⟨rest, rfl⟩ := hcarries
    have hlen := hbuffers _ List.mem_cons_self
    rw [List.length_append, List.length_cons] at hlen
    refine List.forall_mem_cons.mpr ⟨by omega, ih ?_⟩
    exact fun buffer hbuffer => hbuffers buffer (List.mem_cons_of_mem _ hbuffer)

/-- In every session, whatever its calls and however the steps of the two parties interleave, the
loop parses one message for one call, byte for byte and with a NUL behind it, if and only if every
message that the loop has come to is shorter than `MAX_MESSAGE_SIZE`. -/
theorem paired_iff {maxmem : UInt32} {st : Session} (h : Reachable maxmem st) :
    Paired st ↔ Short st := by
  constructor
  · intro hpaired
    exact length_lt_of_carries hpaired h.inv.arrays
  · intro hshort
    exact (h.inv.phase hshort).paired

/-- One `set` and its reply. -/
theorem paired_iff_set : ∃ st, Reachable 12 st ∧ st.waiting = none ∧ st.handed.length = 1 ∧
    Paired st := by
  have hcall := Relation.ReflTransGen.single
    (@Step.call (start 12) (.set (str "a") (stringToVal (str "b"))) _ rfl rfl)
  have hrecv := hcall.tail (.recv rfl rfl (by decide))
  have hanswer := hrecv.tail (.answer rfl rfl)
  have hreach : Reachable 12 _ := hanswer.tail (.finish rfl (by decide) rfl rfl)
  exact ⟨_, hreach, rfl, rfl, (paired_iff hreach).mpr (by decide)⟩

/-- A value of 1000 bytes. -/
def thousand : Blob := ⟨List.replicate 1000 120, 1000, by rw [List.length_replicate]; rfl⟩

/-- A `set` of 1000 bytes sends 1026: they fill the array without a NUL behind them, and the last
two are left to the next `recv`. -/
theorem overlong_not_paired :
    (∃ st msg, Reachable 4096 st ∧ Client.message (.set (str "a") thousand) = .ok msg ∧
      msg.length = 1026 ∧ st.sent = [msg] ∧ st.handed = [msg.take maxMessageSize] ∧
      st.toServer = msg.drop maxMessageSize ∧ ¬ Paired st) ∧
    ¬ ∀ maxmem st, Reachable maxmem st → Paired st := by
  obtain ⟨msg, hmsg, hlen⟩ :
      ∃ msg, Client.message (.set (str "a") thousand) = .ok msg ∧ msg.length = 1026 := by
    have h0 : 0 ∉ thousand.bytes := fun hmem => absurd (List.eq_of_mem_replicate hmem) (by decide)
    have hval : valToString thousand = .ok thousand.bytes := by
      rw [valToString, if_pos (by decide), cString_of_zero_notMem h0]
    refine ⟨_, by rw [Client.message, hval, ok_bind], ?_⟩
    rw [length_setRequest, thousand.length_eq]
    rfl
  have htake : (msg.take maxMessageSize).length = maxMessageSize := by
    rw [List.length_take, hlen]
    rfl
  have hbuffer : recvBuffer (msg.take maxMessageSize) = msg.take maxMessageSize := by
    rw [recvBuffer_of_long htake.ge, List.take_take, Nat.min_self]
  have hne : msg ≠ [] := List.ne_nil_of_length_pos (by omega)
  have hcall := Relation.ReflTransGen.single (@Step.call (start 4096) _ _ rfl hmsg)
  have hreach : Reachable 4096 _ := hcall.tail (.recv rfl rfl hne)
  have hnot : ¬ Paired _ := fun hpaired =>
    absurd (length_lt_of_carries hpaired hreach.inv.arrays msg (List.mem_singleton.mpr rfl))
      (by rw [hlen]; decide)
  exact ⟨⟨_, msg, hreach, hmsg, hlen, rfl, congrArg (fun buffer => [buffer]) hbuffer, rfl, hnot⟩,
    fun hall => hnot (hall _ _ hreach)⟩

/-! ## Whole calls -/

theorem message_ne_nil {op : Op} {msg : Str} (h : Client.message op = .ok msg) : msg ≠ [] := by
  have hne : ∀ request : HTTPRequest, request.toString ≠ [] := by
    intro request
    simp [HTTPRequest.toString]
  cases op with
  | set key val =>
    rw [Client.message, bind_eq_ok] at h
    obtain ⟨valString, -, h⟩ := h
    cases h
    exact hne _
  | get key =>
    cases h
    exact hne _
  | del key =>
    cases h
    exact hne _
  | spaceUsed =>
    cases h
    exact hne _

theorem reply_ne_nil {s s' : Server} {msg reply : Str} (h : s.iteration msg = .ok (s', reply)) :
    reply ≠ [] := by
  simp only [Server.iteration, bind_eq_ok] at h
  obtain ⟨request, -, ⟨s₁, response⟩, -, h⟩ := h
  cases h
  simp [HTTPResponse.toString]

/-- Nothing is under way. -/
structure Idle (st : Session) : Prop where
  waiting : st.waiting = none
  held : st.held = none
  toServer : st.toServer = []
  toClient : st.toClient = []

/-- A call of the client model with a short message, made over the streams. -/
theorem Idle.call {st : Session} (h : Idle st) (hinv : st.server.Inv) {op : Op} {s : Server}
    {ret : Ret} (hstep : Client.step st.server op = .ok (s, ret))
    (hshort : ∀ msg, Client.message op = .ok msg → msg.length < maxMessageSize) :
    ∃ st', Relation.ReflTransGen Step st st' ∧ Idle st' ∧ st'.server = s := by
  simp only [Client.step_eq, bind_eq_ok] at hstep
  obtain ⟨msg, hmsg, ⟨s₁, reply⟩, hiter, response, hresponse, ret₁, hresult, hstep⟩ := hstep
  cases hstep
  have hlen := hshort msg hmsg
  have hreply := length_lt_of_receiveResponse (zero_notMem_reply hinv hiter) hresponse
  have hcall := Relation.ReflTransGen.single (Step.call h.waiting hmsg)
  rw [h.toServer, List.nil_append] at hcall
  have hrecv := hcall.tail (.recv hinv.1 h.held (message_ne_nil hmsg))
  simp only [List.take_of_length_le hlen.le, List.drop_of_length_le hlen.le] at hrecv
  have hanswer := hrecv.tail (.answer rfl hiter)
  simp only [h.toClient, List.nil_append] at hanswer
  have hfinish := hanswer.tail (.finish rfl (reply_ne_nil hiter)
    ((List.take_of_length_le hreply.le).symm ▸ hresponse) hresult)
  exact ⟨_, hfinish, ⟨rfl, rfl, rfl, List.drop_of_length_le hreply.le⟩, rfl⟩

theorem Idle.run {maxmem : UInt32} {st : Session} (h : Idle st) (hreach : Reachable maxmem st)
    {ops : List Op} {s : Server} {rets : List Ret}
    (hrun : Machine.run Client.step st.server ops = .ok (s, rets))
    (hshort : ∀ op ∈ ops, ∀ msg, Client.message op = .ok msg → msg.length < maxMessageSize) :
    ∃ st', Reachable maxmem st' ∧ Idle st' ∧ st'.server = s := by
  induction ops generalizing st rets with
  | nil =>
    cases hrun
    exact ⟨st, hreach, h, rfl⟩
  | cons op ops ih =>
    obtain ⟨s₁, ret, rets', hstep, hrest, -⟩ := Machine.run_cons_ok.mp hrun
    obtain ⟨st₁, hsteps, h₁, rfl⟩ :=
      h.call hreach.inv.server hstep (hshort op List.mem_cons_self)
    exact ih h₁ (hreach.trans hsteps) hrest fun o ho => hshort o (List.mem_cons_of_mem op ho)

/-- A run of the client model whose messages are short is a session over the streams. -/
theorem reachable_of_run {maxmem : UInt32} {ops : List Op} {s : Server} {rets : List Ret}
    (hrun : Client.run maxmem ops = .ok (s, rets))
    (hshort : ∀ op ∈ ops, ∀ msg, Client.message op = .ok msg → msg.length < maxMessageSize) :
    ∃ st, Reachable maxmem st ∧ Idle st ∧ st.server = s := by
  have hidle : Idle (start maxmem) := ⟨rfl, rfl, rfl, rfl⟩
  exact hidle.run .refl hrun hshort

end Session

end NetCache
