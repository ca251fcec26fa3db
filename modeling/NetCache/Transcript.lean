import NetCache.Delivery
import NetCache.Lib.Inevitable
import NetCache.Session

/-!
# What the calls of a session return

A session with its transcript: the calls that the client has begun and what those that are over
have returned. If every message is short, then in whatever order the two parties take their
steps, the calls that are over have returned what they return one after the other (`linearizable`),
and a call that is under way cannot fail to return (`call_returns`). So over the byte streams the
client sees a local cache (`session_delivers`), up to the first count of used bytes that does not
come back.
-/

namespace NetCache

open Lib Cache

namespace Session

/-- The sessions with a server of capacity `maxmem`, with the calls begun so far and what was
returned by those that are over. -/
inductive Runs (maxmem : UInt32) : Session → List Op → List Ret → Prop
  | start : Runs maxmem (start maxmem) [] []
  | call {st : Session} {ops : List Op} {rets : List Ret} {op : Op} {msg : Str}
      (h : Runs maxmem st ops rets) (hidle : st.waiting = none)
      (hmsg : Client.message op = .ok msg) :
      Runs maxmem { st with
        waiting := some op, toServer := st.toServer ++ msg, sent := st.sent ++ [msg] }
        (ops ++ [op]) rets
  | recv {st : Session} {ops : List Op} {rets : List Ret} (h : Runs maxmem st ops rets)
      (hrunning : st.server.running = true) (hfree : st.held = none) (hpending : st.toServer ≠ []) :
      Runs maxmem { st with
        held := some (st.toServer.take maxMessageSize)
        toServer := st.toServer.drop maxMessageSize
        handed := st.handed ++ [recvBuffer (st.toServer.take maxMessageSize)] } ops rets
  | answer {st : Session} {ops : List Op} {rets : List Ret} {msg reply : Str} {server : Server}
      (h : Runs maxmem st ops rets) (hheld : st.held = some msg)
      (hiter : st.server.iteration msg = .ok (server, reply)) :
      Runs maxmem { st with server, held := none, toClient := st.toClient ++ reply } ops rets
  | finish {st : Session} {ops : List Op} {rets : List Ret} {op : Op} {response : HTTPResponse}
      {ret : Ret} (h : Runs maxmem st ops rets) (hwaiting : st.waiting = some op)
      (hpending : st.toClient ≠ [])
      (hresponse : receiveResponse (st.toClient.take maxMessageSize) = .ok response)
      (hresult : Client.result op response = .ok ret) :
      Runs maxmem { st with waiting := none, toClient := st.toClient.drop maxMessageSize }
        ops (rets ++ [ret])

variable {maxmem : UInt32} {st : Session} {ops : List Op} {rets : List Ret}

theorem Runs.reachable (h : Runs maxmem st ops rets) : Reachable maxmem st := by
  induction h with
  | start => exact .refl
  | call _ hidle hmsg ih => exact ih.tail (.call hidle hmsg)
  | recv _ hrunning hfree hpending ih => exact ih.tail (.recv hrunning hfree hpending)
  | answer _ hheld hiter ih => exact ih.tail (.answer hheld hiter)
  | finish _ hwaiting hpending hresponse hresult ih =>
    exact ih.tail (.finish hwaiting hpending hresponse hresult)

/-- Every session has a transcript. -/
theorem reachable_iff : Reachable maxmem st ↔ ∃ ops rets, Runs maxmem st ops rets := by
  constructor
  · intro h
    induction h with
    | refl => exact ⟨[], [], .start⟩
    | tail _ hstep ih =>
      obtain ⟨ops, rets, h⟩ := ih
      cases hstep with
      | call hidle hmsg => exact ⟨_, _, h.call hidle hmsg⟩
      | recv hrunning hfree hpending => exact ⟨_, _, h.recv hrunning hfree hpending⟩
      | answer hheld hiter => exact ⟨_, _, h.answer hheld hiter⟩
      | finish hwaiting hpending hresponse hresult =>
        exact ⟨_, _, h.finish hwaiting hpending hresponse hresult⟩
  · rintro ⟨ops, rets, h⟩
    exact h.reachable

/-- Every call sends a message that leaves room for a NUL. -/
def ShortCalls (ops : List Op) : Prop :=
  ∀ op ∈ ops, ∀ msg, Client.message op = .ok msg → msg.length < maxMessageSize

theorem message_short {op : Op} (hop : Carried op) {msg : Str}
    (hmsg : Client.message op = .ok msg) : msg.length < maxMessageSize := by
  cases op with
  | set k v =>
    obtain ⟨-, hv, -, hlen⟩ := hop
    rw [Client.message, valToString_of_short hv.2 hlen] at hmsg
    cases hmsg
    exact hlen
  | get k =>
    cases hmsg
    exact hop.2
  | del k =>
    cases hmsg
    exact hop.2.2
  | spaceUsed =>
    cases hmsg
    decide

theorem shortCalls_of_carried (h : ∀ op ∈ ops, Carried op) : ShortCalls ops :=
  fun op hop _ => message_short (h op hop)

/-- Where a session stands with its transcript: nothing is under way and the calls have been made
one after the other on the server, or the last call is under way, in one of three places. -/
inductive Stands (maxmem : UInt32) (st : Session) (ops : List Op) (rets : List Ret) : Prop
  | idle (hidle : Idle st) (hrun : Client.run maxmem ops = .ok (st.server, rets))
  | sent {done : List Op} {op : Op} (hops : ops = done ++ [op]) (hwaiting : st.waiting = some op)
      (hheld : st.held = none) (hout : st.toClient = [])
      (hmsg : Client.message op = .ok st.toServer)
      (hrun : Client.run maxmem done = .ok (st.server, rets))
  | held {done : List Op} {op : Op} {msg : Str} (hops : ops = done ++ [op])
      (hwaiting : st.waiting = some op) (hheld : st.held = some msg) (hin : st.toServer = [])
      (hout : st.toClient = []) (hmsg : Client.message op = .ok msg)
      (hrun : Client.run maxmem done = .ok (st.server, rets))
  | replied {done : List Op} {op : Op} {msg : Str} {s : Server} (hops : ops = done ++ [op])
      (hwaiting : st.waiting = some op) (hheld : st.held = none) (hin : st.toServer = [])
      (hout : 0 ∉ st.toClient) (hne : st.toClient ≠ []) (hmsg : Client.message op = .ok msg)
      (hiter : s.iteration msg = .ok (st.server, st.toClient))
      (hrun : Client.run maxmem done = .ok (s, rets))

/-- A call is its message, the loop's answer to it and what the client makes of that. -/
theorem step_eq_ok {s s' : Server} {op : Op} {ret : Ret} : Client.step s op = .ok (s', ret) ↔
    ∃ msg reply response, Client.message op = .ok msg ∧ s.iteration msg = .ok (s', reply) ∧
      receiveResponse reply = .ok response ∧ Client.result op response = .ok ret := by
  rw [Client.step_eq]
  constructor
  · intro h
    simp only [bind_eq_ok] at h
    obtain ⟨msg, hmsg, ⟨s₁, reply⟩, hiter, response, hresponse, ret₁, hresult, h⟩ := h
    cases h
    exact ⟨msg, reply, response, hmsg, hiter, hresponse, hresult⟩
  · rintro ⟨msg, reply, response, hmsg, hiter, hresponse, hresult⟩
    simp only [hmsg, hiter, hresponse, hresult, ok_bind]

theorem run_snoc {done : List Op} {s s' : Server} {op : Op} {ret : Ret}
    (hrun : Client.run maxmem done = .ok (s, rets)) (hstep : Client.step s op = .ok (s', ret)) :
    Client.run maxmem (done ++ [op]) = .ok (s', rets ++ [ret]) :=
  Machine.run_append_ok hrun (Machine.run_cons_ok.mpr ⟨s', ret, [], hstep, rfl, rfl⟩)

/-- A reply that is parsed has not filled the client's array. -/
theorem length_le_of_response {pending : Str} {response : HTTPResponse} (h0 : 0 ∉ pending)
    (h : receiveResponse (pending.take maxMessageSize) = .ok response) :
    pending.length ≤ maxMessageSize := by
  have htake := length_lt_of_receiveResponse (fun hmem => h0 (List.mem_of_mem_take hmem)) h
  rw [List.length_take] at htake
  omega

/-- Every session with short messages stands somewhere. -/
theorem Runs.stands (h : Runs maxmem st ops rets) (hshort : ShortCalls ops) :
    Stands maxmem st ops rets := by
  induction h with
  | start => exact .idle ⟨rfl, rfl, rfl, rfl⟩ rfl
  | call h hidle hmsg ih =>
    cases ih fun o ho => hshort o (List.mem_append_left _ ho) with
    | idle hi hrun =>
      refine .sent rfl rfl hi.held hi.toClient ?_ hrun
      rw [hi.toServer, List.nil_append, hmsg]
    | sent hops hwaiting => cases hidle.symm.trans hwaiting
    | held hops hwaiting => cases hidle.symm.trans hwaiting
    | replied hops hwaiting => cases hidle.symm.trans hwaiting
  | recv h hrunning hfree hpending ih =>
    cases ih hshort with
    | idle hi => exact absurd hi.toServer hpending
    | sent hops hwaiting hheld hout hmsg hrun =>
      have hlen := hshort _ (hops ▸ List.mem_append_right _ List.mem_cons_self) _ hmsg
      refine .held hops hwaiting rfl (List.drop_of_length_le hlen.le) hout ?_ hrun
      rw [List.take_of_length_le hlen.le, hmsg]
    | held hops hwaiting hheld => cases hfree.symm.trans hheld
    | replied hops hwaiting hheld hin => exact absurd hin hpending
  | answer h hheld' hiter ih =>
    cases ih hshort with
    | idle hi => cases hi.held.symm.trans hheld'
    | sent hops hwaiting hheld => cases hheld.symm.trans hheld'
    | held hops hwaiting hheld hin hout hmsg hrun =>
      cases hheld.symm.trans hheld'
      have h0 := zero_notMem_reply h.reachable.inv.server hiter
      have hne := reply_ne_nil hiter
      refine .replied hops hwaiting rfl hin ?_ ?_ hmsg ?_ hrun
      · rwa [hout, List.nil_append]
      · rwa [hout, List.nil_append]
      · rwa [hout, List.nil_append]
    | replied hops hwaiting hheld => cases hheld.symm.trans hheld'
  | finish h hwaiting' hpending hresponse hresult ih =>
    cases ih hshort with
    | idle hi => cases hi.waiting.symm.trans hwaiting'
    | sent hops hwaiting hheld hout => exact absurd hout hpending
    | held hops hwaiting hheld hin hout => exact absurd hout hpending
    | replied hops hwaiting hheld hin hout hne hmsg hiter hrun =>
      cases hwaiting.symm.trans hwaiting'
      have hlen := length_le_of_response hout hresponse
      rw [List.take_of_length_le hlen] at hresponse
      refine .idle ⟨rfl, hheld, hin, List.drop_of_length_le hlen⟩ ?_
      rw [hops]
      exact run_snoc hrun (step_eq_ok.mpr ⟨_, _, _, hmsg, hiter, hresponse, hresult⟩)

/-- Between two calls the calls have been served one after the other. During a call those before
it have, and it has been served once or not yet. -/
theorem Stands.served (h : Stands maxmem st ops rets) :
    st.waiting = none ∧ Client.run maxmem ops = .ok (st.server, rets) ∨
    ∃ done op s, ops = done ++ [op] ∧ st.waiting = some op ∧
      Client.run maxmem done = .ok (s, rets) ∧ (st.server = s ∨ ∃ msg reply,
        Client.message op = .ok msg ∧ s.iteration msg = .ok (st.server, reply)) := by
  cases h with
  | idle hi hrun => exact .inl ⟨hi.waiting, hrun⟩
  | sent hops hwaiting _ _ _ hrun => exact .inr ⟨_, _, _, hops, hwaiting, hrun, .inl rfl⟩
  | held hops hwaiting _ _ _ _ hrun => exact .inr ⟨_, _, _, hops, hwaiting, hrun, .inl rfl⟩
  | replied hops hwaiting _ _ _ _ hmsg hiter hrun =>
    exact .inr ⟨_, _, _, hops, hwaiting, hrun, .inr ⟨_, _, hmsg, hiter⟩⟩

/-- In every session with short messages, however the steps interleave: between two calls the
server is where serving the calls one after the other leads to, and the calls have returned what
they return then; during a call this is so of the calls before it, and the server has served the
call once or not yet. -/
theorem linearizable (h : Runs maxmem st ops rets) (hshort : ShortCalls ops) :
    st.waiting = none ∧ Client.run maxmem ops = .ok (st.server, rets) ∨
    ∃ done op s, ops = done ++ [op] ∧ st.waiting = some op ∧
      Client.run maxmem done = .ok (s, rets) ∧ (st.server = s ∨ ∃ msg reply,
        Client.message op = .ok msg ∧ s.iteration msg = .ok (st.server, reply)) :=
  (h.stands hshort).served

/-- A `set` that the loop has received and not answered yet. -/
theorem linearizable_held : ∃ st rets, Runs 12 st [.set (str "a") (stringToVal (str "b"))] rets ∧
    st.held ≠ none ∧ (st.waiting = none ∧
      Client.run 12 [.set (str "a") (stringToVal (str "b"))] = .ok (st.server, rets) ∨
      ∃ done op s, [.set (str "a") (stringToVal (str "b"))] = done ++ [op] ∧
        st.waiting = some op ∧ Client.run 12 done = .ok (s, rets) ∧ (st.server = s ∨
          ∃ msg reply, Client.message op = .ok msg ∧
            s.iteration msg = .ok (st.server, reply))) := by
  have hcall : Runs 12 _ [.set (str "a") (stringToVal (str "b"))] [] := Runs.start.call rfl rfl
  have hrecv := hcall.recv rfl rfl (by decide)
  have hshort : ShortCalls [.set (str "a") (stringToVal (str "b"))] :=
    shortCalls_of_carried (by decide)
  exact ⟨_, _, hrecv, Option.some_ne_none _, linearizable hrecv hshort⟩

/-! ## Calls return -/

/-- The steps that a call under way still has to take. -/
def remaining (st : Session) : Nat :=
  (if st.toServer = [] then 0 else 3) + (if st.held = none then 0 else 2) +
    (if st.toClient = [] then 0 else 1)

/-- One party can take a step, and every step brings the call `op`, which is to return `ret` and
lead to the server `s`, closer to its end. -/
def Progresses (maxmem : UInt32) (ops : List Op) (rets : List Ret) (op : Op) (s : Server)
    (ret : Ret) (st : Session) : Prop :=
  (∃ st', Step st st') ∧ ∀ st', Step st st' → remaining st' < remaining st ∧
    (Runs maxmem st' ops rets ∧ st'.waiting = some op ∨
      st'.waiting = none ∧ st'.server = s ∧ Runs maxmem st' ops (rets ++ [ret]))

section Phases

variable {op : Op} {s : Server} {ret : Ret}

theorem progresses_sent (h : Runs maxmem st ops rets) (hwaiting : st.waiting = some op)
    (hheld : st.held = none) (hout : st.toClient = []) (hmsg : Client.message op = .ok st.toServer)
    (hlen : st.toServer.length < maxMessageSize) : Progresses maxmem ops rets op s ret st := by
  have hpending : st.toServer ≠ [] := message_ne_nil hmsg
  refine ⟨⟨_, .recv h.reachable.inv.server.1 hheld hpending⟩, ?_⟩
  intro st' hstep
  cases hstep with
  | call hidle => cases hidle.symm.trans hwaiting
  | recv hrunning hfree hpending =>
    refine ⟨?_, .inl ⟨h.recv hrunning hfree hpending, hwaiting⟩⟩
    simp [remaining, hheld, hout, hpending, List.drop_of_length_le hlen.le]
  | answer hheld' => cases hheld.symm.trans hheld'
  | finish _ hpending => exact absurd hout hpending

theorem progresses_held (h : Runs maxmem st ops rets) (hwaiting : st.waiting = some op)
    {msg reply : Str} (hheld : st.held = some msg) (hin : st.toServer = [])
    (hout : st.toClient = []) (hiter : st.server.iteration msg = .ok (s, reply)) :
    Progresses maxmem ops rets op s ret st := by
  refine ⟨⟨_, .answer hheld hiter⟩, ?_⟩
  intro st' hstep
  cases hstep with
  | call hidle => cases hidle.symm.trans hwaiting
  | recv _ hfree => cases hfree.symm.trans hheld
  | answer hheld' hiter' =>
    refine ⟨?_, .inl ⟨h.answer hheld' hiter', hwaiting⟩⟩
    simp [remaining, hheld, hout, hin, reply_ne_nil hiter']
  | finish _ hpending => exact absurd hout hpending

theorem progresses_replied (h : Runs maxmem st ops rets) (hwaiting : st.waiting = some op)
    (hheld : st.held = none) (hin : st.toServer = []) (hne : st.toClient ≠ [])
    (hout : 0 ∉ st.toClient) {response : HTTPResponse}
    (hresponse : receiveResponse st.toClient = .ok response)
    (hresult : Client.result op response = .ok ret) :
    Progresses maxmem ops rets op st.server ret st := by
  have hfit := (length_lt_of_receiveResponse hout hresponse).le
  rw [← List.take_of_length_le hfit] at hresponse
  refine ⟨⟨_, .finish hwaiting hne hresponse hresult⟩, ?_⟩
  intro st' hstep
  cases hstep with
  | call hidle => cases hidle.symm.trans hwaiting
  | recv _ _ hpending => exact absurd hin hpending
  | answer hheld' => cases hheld.symm.trans hheld'
  | finish hwaiting' hpending hresponse' hresult' =>
    cases hwaiting.symm.trans hwaiting'
    cases hresponse.symm.trans hresponse'
    cases hresult.symm.trans hresult'
    refine ⟨?_, .inr ⟨rfl, rfl, h.finish hwaiting hpending hresponse hresult⟩⟩
    simp [remaining, hheld, hin, hne, List.drop_of_length_le hfit]

end Phases

/-- A call under way that the server can serve and the client can use makes progress. -/
theorem Stands.progresses (hst : Stands maxmem st ops rets) (h : Runs maxmem st ops rets)
    (hshort : ShortCalls ops) {done : List Op} {op : Op} {s s' : Server} {ret : Ret}
    (hops : ops = done ++ [op]) (hwaiting : st.waiting = some op)
    (hrun : Client.run maxmem done = .ok (s, rets)) (hcall : Client.step s op = .ok (s', ret)) :
    Progresses maxmem ops rets op s' ret st := by
  obtain ⟨msg, reply, response, hmsg, hiter, hresponse, hresult⟩ := step_eq_ok.mp hcall
  cases hst with
  | idle hi => cases hi.waiting.symm.trans hwaiting
  | sent hops' hwaiting' hheld hout hmsg' hrun' =>
    cases hwaiting.symm.trans hwaiting'
    have hlen := hshort op (hops ▸ List.mem_append_right _ List.mem_cons_self) _ hmsg'
    exact progresses_sent h hwaiting hheld hout hmsg' hlen
  | held hops' hwaiting' hheld hin hout hmsg' hrun' =>
    cases hwaiting.symm.trans hwaiting'
    cases hmsg'.symm.trans hmsg
    obtain ⟨rfl, -⟩ := List.append_inj' (hops.symm.trans hops') rfl
    cases hrun.symm.trans hrun'
    exact progresses_held h hwaiting hheld hin hout hiter
  | replied hops' hwaiting' hheld hin hout hne hmsg' hiter' hrun' =>
    cases hwaiting.symm.trans hwaiting'
    cases hmsg'.symm.trans hmsg
    obtain ⟨rfl, -⟩ := List.append_inj' (hops.symm.trans hops') rfl
    cases hrun.symm.trans hrun'
    obtain ⟨rfl, rfl⟩ := Prod.mk.inj (Except.ok.inj (hiter'.symm.trans hiter))
    exact progresses_replied h hwaiting hheld hin hne hout hresponse hresult

/-- A call under way that the server can serve and the client can use returns. -/
theorem Runs.returns (h : Runs maxmem st ops rets) (hshort : ShortCalls ops) {done : List Op}
    {op : Op} {s s' : Server} {ret : Ret} (hops : ops = done ++ [op])
    (hwaiting : st.waiting = some op) (hrun : Client.run maxmem done = .ok (s, rets))
    (hcall : Client.step s op = .ok (s', ret)) : Inevitable Step (fun st' =>
      st'.waiting = none ∧ st'.server = s' ∧ Runs maxmem st' ops (rets ++ [ret])) st := by
  refine .of_variant (fun st' => Runs maxmem st' ops rets ∧ st'.waiting = some op ∨
    st'.waiting = none ∧ st'.server = s' ∧ Runs maxmem st' ops (rets ++ [ret])) remaining ?_
    (.inl ⟨h, hwaiting⟩)
  intro st₁ hst₁ hnot
  obtain ⟨h₁, hwaiting₁⟩ := hst₁.resolve_right hnot
  obtain ⟨hsome, hall⟩ := (h₁.stands hshort).progresses h₁ hshort hops hwaiting₁ hrun hcall
  exact ⟨hsome, fun st' hstep => (hall st' hstep).symm⟩

/-- In every session with short messages, a call under way that returns when it is made alone on
the server cannot fail to return the same, whichever steps the parties take. -/
theorem call_returns (h : Runs maxmem st ops rets) (hshort : ShortCalls ops) {op : Op}
    (hwaiting : st.waiting = some op) :
    ∃ done s, ops = done ++ [op] ∧ Client.run maxmem done = .ok (s, rets) ∧
      ∀ s' ret, Client.step s op = .ok (s', ret) → Inevitable Step (fun st' =>
        st'.waiting = none ∧ st'.server = s' ∧ Runs maxmem st' ops (rets ++ [ret])) st := by
  rcases (h.stands hshort).served with ⟨hidle, -⟩ | ⟨done, op', s, hops, hwaiting', hrun, -⟩
  · cases hidle.symm.trans hwaiting
  · cases hwaiting.symm.trans hwaiting'
    exact ⟨done, s, hops, hrun, fun s' ret => h.returns hshort hops hwaiting hrun⟩

/-- A `get` whose message has been sent. -/
theorem call_returns_get : ∃ st, Runs 12 st [.get (str "a")] [] ∧ st.toServer ≠ [] ∧
    ∃ done s, [.get (str "a")] = done ++ [.get (str "a")] ∧ Client.run 12 done = .ok (s, []) ∧
      ∀ s' ret, Client.step s (.get (str "a")) = .ok (s', ret) → Inevitable Step (fun st' =>
        st'.waiting = none ∧ st'.server = s' ∧ Runs 12 st' [.get (str "a")] ([] ++ [ret])) st := by
  have hcall : Runs 12 _ [.get (str "a")] [] := Runs.start.call rfl rfl
  exact ⟨_, hcall, by decide, call_returns hcall (shortCalls_of_carried (by decide)) rfl⟩

/-- The sessions with short messages that are between two calls, with what was returned, are
exactly the runs of the client on the server. -/
theorem run_iff (hshort : ShortCalls ops) {s : Server} : Client.run maxmem ops = .ok (s, rets) ↔
    ∃ st, Runs maxmem st ops rets ∧ st.waiting = none ∧ st.server = s := by
  constructor
  · intro hrun
    induction ops using List.reverseRecOn generalizing s rets with
    | nil =>
      cases hrun
      exact ⟨_, .start, rfl, rfl⟩
    | append_singleton ops op ih =>
      obtain ⟨s₁, before, last, hbefore, hlast, rfl⟩ := Machine.run_of_append hrun
      obtain ⟨s₂, ret, _, hstep, hnil, rfl⟩ := Machine.run_cons_ok.mp hlast
      cases hnil
      obtain ⟨st, h, hidle, rfl⟩ := ih (fun o ho => hshort o (List.mem_append_left _ ho)) hbefore
      obtain ⟨msg, reply, response, hmsg, -⟩ := step_eq_ok.mp hstep
      have hcall := (h.call hidle hmsg).returns hshort rfl rfl hbefore hstep
      obtain ⟨st', -, hidle', hserver, h'⟩ := hcall.exists_reach
      exact ⟨st', h', hidle', hserver⟩
  · rintro ⟨st, h, hidle, rfl⟩
    rcases (h.stands hshort).served with ⟨-, hrun⟩ | ⟨_, _, _, _, hbusy, -⟩
    · exact hrun
    · cases hidle.symm.trans hbusy

/-- A `set` and a `get` of its key. -/
theorem run_iff_set : ∃ st, Runs 12 st [.set (str "a") (stringToVal (str "b")), .get (str "a")]
    [.code 0, .value ⟨some (str "b"), 1⟩] ∧ st.waiting = none := by
  have hrun : (Client.run 12 [.set (str "a") (stringToVal (str "b")), .get (str "a")]).map
      Prod.snd = .ok [.code 0, .value ⟨some (str "b"), 1⟩] := by decide
  obtain ⟨⟨s, rets⟩, hrun, rfl⟩ := map_eq_ok.mp hrun
  obtain ⟨st, h, hidle, -⟩ := (run_iff (shortCalls_of_carried (by decide))).mp hrun
  exact ⟨st, h, hidle⟩

/-! ## The local cache that a session shows -/

/-- Calls that are carried and over have been made on a local cache, which is the server's. -/
theorem run_carried (hops : ∀ op ∈ ops, Carried op) {s : Server}
    (hrun : Client.run maxmem ops = .ok (s, rets)) :
    Impl.run maxmem (ops.map delivered) = .ok (s.cache, rets) ∧ CountsClean rets ∧
      ∃ m, Holds Sendable s.cache m := by
  obtain ⟨cache, answers, hlocal, hholds, hreturns⟩ :=
    run_delivers (s := Server.new maxmem) (Holds.new Sendable maxmem) hops
  obtain ⟨hclean, h⟩ := (hreturns _).mp hrun
  cases h
  exact ⟨hlocal, hclean, hholds⟩

/-- A session beside the local cache on the calls delivered, which ends as `cache` and gives the
`answers`. Between two calls the server's cache is the local one, and all answers have been
returned. During a call it is the local one before this call or after it, and all answers but the
last have been returned. -/
inductive Beside (maxmem : UInt32) (st : Session) (ops : List Op) (rets : List Ret) (cache : Impl)
    (answers : List Ret) : Prop
  | idle (hwaiting : st.waiting = none) (hcache : st.server.cache = cache)
      (hanswers : answers = rets)
  | busy {done : List Op} {op : Op} {before : Impl} {last : Ret} (hops : ops = done ++ [op])
      (hwaiting : st.waiting = some op)
      (hdone : Impl.run maxmem (done.map delivered) = .ok (before, rets))
      (hlast : before.step (delivered op) = .ok (cache, last))
      (hcache : st.server.cache = before ∨ st.server.cache = cache)
      (hanswers : answers = rets ++ [last])

theorem Beside.rets_prefix {cache : Impl} {answers : List Ret}
    (h : Beside maxmem st ops rets cache answers) : rets <+: answers := by
  cases h with
  | idle _ _ hanswers => exact hanswers ▸ List.prefix_rfl
  | busy _ _ _ _ _ hanswers => exact hanswers ▸ List.prefix_append _ _

theorem Beside.idle_eq {cache : Impl} {answers : List Ret}
    (h : Beside maxmem st ops rets cache answers) (hidle : st.waiting = none) : answers = rets := by
  cases h with
  | idle _ _ hanswers => exact hanswers
  | busy _ hwaiting => cases hidle.symm.trans hwaiting

/-- A call that is carried, after calls that are over. -/
theorem step_carried {done : List Op} {op : Op} (hops : ∀ o ∈ done ++ [op], Carried o) {s : Server}
    (hdone : Client.run maxmem done = .ok (s, rets)) : ∃ cache last msg reply,
      Delivers s op cache last msg reply ∧
      Impl.run maxmem ((done ++ [op]).map delivered) = .ok (cache, rets ++ [last]) := by
  obtain ⟨hlocal, -, m, hm⟩ := run_carried (fun o ho => hops o (List.mem_append_left _ ho)) hdone
  obtain ⟨cache, last, msg, reply, hcall, -⟩ :=
    step_delivers hm (hops op (List.mem_append_right _ List.mem_cons_self))
  refine ⟨cache, last, msg, reply, hcall, ?_⟩
  rw [List.map_append]
  exact Machine.run_append_ok hlocal (Machine.run_cons_ok.mpr ⟨_, _, _, hcall.made, rfl, rfl⟩)

/-- Where calls that are carried are served one after the other, a session is beside the local
cache. -/
theorem beside_of_served (hops : ∀ op ∈ ops, Carried op)
    (h : st.waiting = none ∧ Client.run maxmem ops = .ok (st.server, rets) ∨
      ∃ done op s, ops = done ++ [op] ∧ st.waiting = some op ∧
        Client.run maxmem done = .ok (s, rets) ∧ (st.server = s ∨ ∃ msg reply,
          Client.message op = .ok msg ∧ s.iteration msg = .ok (st.server, reply))) :
    ∃ cache answers, Impl.run maxmem (ops.map delivered) = .ok (cache, answers) ∧
      Beside maxmem st ops rets cache answers := by
  rcases h with ⟨hwaiting, hidle⟩ | ⟨done, op, s, rfl, hwaiting, hdone, hserver⟩
  · exact ⟨_, _, (run_carried hops hidle).1, .idle hwaiting rfl rfl⟩
  · obtain ⟨cache, last, msg, reply, hcall, hlocal⟩ := step_carried hops hdone
    have hbefore := (run_carried (fun o ho => hops o (List.mem_append_left _ ho)) hdone).1
    refine ⟨cache, _, hlocal, .busy rfl hwaiting hbefore hcall.made ?_ rfl⟩
    rcases hserver with rfl | ⟨msg', reply', hmsg, hiter⟩
    · exact .inl rfl
    · cases hmsg.symm.trans hcall.message
      obtain ⟨hserver, -⟩ := Prod.mk.inj (Except.ok.inj (hiter.symm.trans hcall.iteration))
      exact .inr (congrArg Server.cache hserver)

/-- In a session whose calls are carried, the calls begun cannot fail to return their local
answers exactly if the counts among these are clean. -/
theorem Runs.returns_iff (h : Runs maxmem st ops rets) (hops : ∀ op ∈ ops, Carried op)
    {cache : Impl} {answers : List Ret}
    (hlocal : Impl.run maxmem (ops.map delivered) = .ok (cache, answers)) :
    Inevitable Step (fun st' => st'.waiting = none ∧ Runs maxmem st' ops answers) st ↔
      CountsClean answers := by
  have hshort := shortCalls_of_carried hops
  constructor
  · intro hreturns
    obtain ⟨st', -, hidle, h'⟩ := hreturns.exists_reach
    rcases (h'.stands hshort).served with ⟨-, hrun⟩ | ⟨_, _, _, _, hwaiting, -⟩
    · exact (run_carried hops hrun).2.1
    · cases hidle.symm.trans hwaiting
  · intro hclean
    rcases (h.stands hshort).served with ⟨hwaiting, hrun⟩ | ⟨done, op, s, rfl, hwaiting, hdone, -⟩
    · cases (run_carried hops hrun).1.symm.trans hlocal
      exact .now ⟨hwaiting, h⟩
    · obtain ⟨cache', last, msg, reply, hcall, hlocal'⟩ := step_carried hops hdone
      cases hlocal.symm.trans hlocal'
      have hlast : CountsClean [last] := fun n hn => hclean n (List.mem_append_right _ hn)
      have hreturns := h.returns hshort rfl hwaiting hdone ((hcall.returns _).mpr ⟨hlast, rfl⟩)
      exact hreturns.mono fun _ hst => ⟨hst.1, hst.2.2⟩

/-- A session whose calls are carried is beside the local cache, and no count that it has returned
is unclean. -/
theorem Runs.beside (h : Runs maxmem st ops rets) (hops : ∀ op ∈ ops, Carried op) {cache : Impl}
    {answers : List Ret} (hlocal : Impl.run maxmem (ops.map delivered) = .ok (cache, answers)) :
    Beside maxmem st ops rets cache answers ∧ CountsClean rets := by
  have hserved := (h.stands (shortCalls_of_carried hops)).served
  obtain ⟨cache', answers', hlocal', hbeside⟩ := beside_of_served hops hserved
  cases hlocal.symm.trans hlocal'
  refine ⟨hbeside, ?_⟩
  rcases hserved with ⟨-, hrun⟩ | ⟨done, op, s, rfl, -, hdone, -⟩
  · exact (run_carried hops hrun).2.1
  · exact (run_carried (fun o ho => hops o (List.mem_append_left _ ho)) hdone).2.1

end Session

end NetCache
