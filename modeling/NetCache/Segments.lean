import NetCache.Transcript

/-!
# Messages that arrive in pieces

In `Session` a `recv` takes all that is pending. A stream socket promises less: any part of a
message may arrive first, and `recv` returns it. No parser here waits for the rest. `RunsCut` are
the sessions in which requests are cut anywhere. The loop then makes a call of the client or ends.
It makes no other call, so its cache is always the local one before or after the call under way,
and what the calls return is still right (`cut_requests_safe`).
-/

namespace NetCache

open Lib Cache

/-- What can be left of a request whose call was made: nothing, or its last newline. -/
def Spare (s : Str) : Prop := s = [] ∨ s = [10]

theorem Spare.tokens_append {l : Str} (h : Spare l) (s : Str) :
    Tokens.tokens isNewline (l ++ s) = Tokens.tokens isNewline s := by
  rcases h with rfl | rfl
  · rfl
  · exact Tokens.tokens_cons rfl s

theorem Spare.zero_notMem {l : Str} (h : Spare l) : 0 ∉ l := by
  rcases h with rfl | rfl <;> decide

/-- A piece of what is spare is all of it. -/
theorem Spare.cut {s piece rest : Str} (h : Spare s) (hcut : s = piece ++ rest) (hne : piece ≠ []) :
    piece = [10] ∧ rest = [] := by
  rcases h with rfl | rfl
  · exact absurd (List.append_eq_nil_iff.mp hcut.symm).1 hne
  · rcases List.append_eq_singleton_iff.mp hcut.symm with ⟨hnil, -⟩ | ⟨h10, hnil⟩
    · exact absurd hnil hne
    · exact ⟨h10, hnil⟩

/-- What is received without a NUL is parsed as it is. -/
theorem receiveRequest_of_receive {s : Str} (h0 : 0 ∉ s) (hlen : s.length < maxMessageSize) :
    receiveRequest s = HTTPRequest.new.parseRawRequest s := by
  rw [receiveRequest, receive_of_short hlen, ok_bind, cString_of_zero_notMem h0]

/-- The parser of requests needs five lines. -/
theorem five_lines {s : Str} {r : HTTPRequest} (h0 : 0 ∉ s) (h : receiveRequest s = .ok r) :
    5 ≤ (Tokens.tokens isNewline s).length := by
  rw [receiveRequest_of_receive h0 (length_lt_of_receiveRequest h0 h),
    HTTPRequest.parseRawRequest_eq] at h
  split at h
  · rename_i verb uri version ts htokens
    obtain ⟨p, hsplit, -⟩ := map_eq_ok.mp h
    obtain ⟨sp, rest, rfl, -, -⟩ := splitHeaders_ok.mp hsplit
    simp only [htokens, List.length_cons, List.length_append]
    omega
  · cases h

/-- A request of the client, up to its body. -/
def requestHead (verb uri : Str) : Str := verb ++ 10 :: (uri ++ 10 :: (HTTPVersion ++ [10, 32, 10]))

theorem request_text (verb uri : Str) :
    ({ HTTPRequest.new with verb, uri } : HTTPRequest).toString =
      requestHead verb uri ++ [32, 10] := by
  simp [HTTPRequest.toString, HTTPRequest.new, requestHead, headersAndBodyToString, str]

section Requests

variable {verb uri : Str}

theorem tokens_requestHead (hverb : IsLine verb) (huri : IsLine uri) (s : Str) :
    Tokens.tokens isNewline (requestHead verb uri ++ s) =
      verb :: uri :: HTTPVersion :: [32] :: Tokens.tokens isNewline s := by
  have hversion : IsLine HTTPVersion := by decide
  have hspace : IsLine [32] := by decide
  have htext : requestHead verb uri ++ s =
      verb ++ 10 :: (uri ++ 10 :: (HTTPVersion ++ 10 :: ([32] ++ 10 :: s))) := by simp [requestHead]
  rw [htext, tokens_line hverb, tokens_line huri, tokens_line hversion, tokens_line hspace]

theorem tokens_spare_requestHead (hverb : IsLine verb) (huri : IsLine uri) {l : Str}
    (hl : Spare l) (s : Str) : Tokens.tokens isNewline (l ++ requestHead verb uri ++ s) =
      verb :: uri :: HTTPVersion :: [32] :: Tokens.tokens isNewline s := by
  rw [List.append_assoc, hl.tokens_append, tokens_requestHead hverb huri]

/-- A piece that ends before the body has four lines at most. -/
theorem four_lines (hverb : IsLine verb) (huri : IsLine uri) {l : Str} (hl : Spare l) {piece : Str}
    (h : piece <+: l ++ requestHead verb uri) : (Tokens.tokens isNewline piece).length ≤ 4 := by
  have hfew := (Tokens.cut_of_prefix (p := isNewline) h).length_le
  have hfour := tokens_spare_requestHead hverb huri hl []
  rw [List.append_nil] at hfour
  rwa [hfour] at hfew

/-- The parser makes the same of the same lines. -/
theorem receiveRequest_congr {piece msg : Str} (h0 : 0 ∉ piece) (hmsg0 : 0 ∉ msg)
    (hlen : msg.length < maxMessageSize) {r : HTTPRequest} (h : receiveRequest piece = .ok r)
    (hsame : Tokens.tokens isNewline piece = Tokens.tokens isNewline msg) :
    receiveRequest piece = receiveRequest msg := by
  rw [receiveRequest_of_receive h0 (length_lt_of_receiveRequest h0 h),
    receiveRequest_of_receive hmsg0 hlen, HTTPRequest.parseRawRequest_eq,
    HTTPRequest.parseRawRequest_eq, hsame]

/-- If a piece of a request is parsed, then at most the last newline is missing, and it is parsed
as the whole request is. -/
theorem receiveRequest_cut (hverb : IsLine verb) (huri : IsLine uri) {msg : Str}
    (hmsg : msg = ({ HTTPRequest.new with verb, uri } : HTTPRequest).toString)
    (hlen : msg.length < maxMessageSize) {l piece rest : Str} (hl : Spare l)
    (hcut : piece ++ rest = l ++ msg) {r : HTTPRequest} (h : receiveRequest piece = .ok r) :
    Spare rest ∧ receiveRequest piece = receiveRequest msg := by
  have hmsg0 : 0 ∉ msg := hmsg ▸ (encodable_request hverb huri).zero_notMem
  have h0 : 0 ∉ piece := by
    intro hmem
    have hall : 0 ∈ l ++ msg := hcut ▸ List.mem_append_left rest hmem
    exact (List.mem_append.mp hall).elim hl.zero_notMem hmsg0
  rw [request_text] at hmsg
  have hwhole : Tokens.tokens isNewline msg = [verb, uri, HTTPVersion, [32], [32]] := by
    rw [hmsg, tokens_requestHead hverb huri]
    rfl
  rw [hmsg, ← List.append_assoc] at hcut
  have htokens := tokens_spare_requestHead hverb huri hl
  match rest, hcut with
  | [], hcut =>
    rw [List.append_nil] at hcut
    refine ⟨.inl rfl, receiveRequest_congr h0 hmsg0 hlen h ?_⟩
    rw [hcut, htokens, hwhole]
    rfl
  | [x], hcut =>
    have hsplit : piece ++ [x] = (l ++ requestHead verb uri ++ [32]) ++ [10] := by
      rw [hcut, List.append_assoc _ [32]]
      rfl
    obtain ⟨hpiece, hx⟩ := List.append_inj' hsplit rfl
    refine ⟨.inr hx, receiveRequest_congr h0 hmsg0 hlen h ?_⟩
    rw [hpiece, htokens, hwhole]
    rfl
  | x :: y :: rest, hcut =>
    have hbegins : piece <+: l ++ requestHead verb uri := by
      refine List.prefix_of_prefix_length_le ⟨_, hcut⟩ (List.prefix_append _ [32, 10]) ?_
      have := congrArg List.length hcut
      simp only [List.length_append, List.length_cons, List.length_nil] at this ⊢
      omega
    have hfew := (five_lines h0 h).trans (four_lines hverb huri hl hbegins)
    exact absurd hfew (by decide)

/-- A lone newline is no request. -/
theorem receiveRequest_newline : receiveRequest [10] = .error .nullToken := by decide

end Requests

/-- The request of a call that is carried. -/
theorem request_of_carried {op : Op} (hop : Carried op) : ∃ verb uri,
    Client.message op = .ok ({ HTTPRequest.new with verb, uri } : HTTPRequest).toString ∧
      IsLine verb ∧ IsLine uri ∧
      ({ HTTPRequest.new with verb, uri } : HTTPRequest).toString.length < maxMessageSize := by
  cases op with
  | set k v =>
    obtain ⟨hk, hv, -, hlen⟩ := hop
    refine ⟨str "PUT", _, ?_, by decide, (encodable_setRequest hk hv).uri, hlen⟩
    rw [Client.message, valToString_of_short hv.2 hlen]
    rfl
  | get k =>
    exact ⟨str "GET", _, rfl, by decide, isLine_key hop.1.plain.1 hop.1.plain.2, hop.2⟩
  | del k =>
    exact ⟨str "DELETE", _, rfl, by decide, isLine_key hop.2.1.1 hop.2.1.2, hop.2.2⟩
  | spaceUsed => exact ⟨str "GET", str "/memsize", rfl, by decide, by decide, by decide⟩

namespace Server

/-- The loop answers a piece of a request only if its call is that of the whole request. -/
theorem iteration_cut {s s' : Server} {op : Op} {msg reply l piece rest : Str} (hop : Carried op)
    (hmsg : Client.message op = .ok msg) (hl : Spare l) (hcut : piece ++ rest = l ++ msg)
    (h : s.iteration piece = .ok (s', reply)) :
    Spare rest ∧ s.iteration msg = .ok (s', reply) := by
  obtain ⟨verb, uri, hmsg', hverb, huri, hlen⟩ := request_of_carried hop
  cases hmsg.symm.trans hmsg'
  have hparsed : ∃ r, receiveRequest piece = .ok r := by
    rw [iteration, bind_eq_ok] at h
    obtain ⟨r, hr, -⟩ := h
    exact ⟨r, hr⟩
  obtain ⟨r, hr⟩ := hparsed
  obtain ⟨hrest, hsame⟩ := receiveRequest_cut hverb huri rfl hlen hl hcut hr
  refine ⟨hrest, ?_⟩
  rw [iteration, hsame] at h
  exact h

theorem iteration_newline (s : Server) : s.iteration [10] = .error .nullToken := by
  rw [iteration, receiveRequest_newline, error_bind]

end Server

namespace Session

/-- The sessions in which `recv` gives the loop any part of what is pending, with the calls begun
so far and what was returned by those that are over. -/
inductive RunsCut (maxmem : UInt32) : Session → List Op → List Ret → Prop
  | start : RunsCut maxmem (start maxmem) [] []
  | call {st : Session} {ops : List Op} {rets : List Ret} {op : Op} {msg : Str}
      (h : RunsCut maxmem st ops rets) (hidle : st.waiting = none)
      (hmsg : Client.message op = .ok msg) :
      RunsCut maxmem { st with
        waiting := some op, toServer := st.toServer ++ msg, sent := st.sent ++ [msg] }
        (ops ++ [op]) rets
  | recv {st : Session} {ops : List Op} {rets : List Ret} {piece rest : Str}
      (h : RunsCut maxmem st ops rets) (hrunning : st.server.running = true)
      (hfree : st.held = none) (hpending : st.toServer = piece ++ rest) (hne : piece ≠ [])
      (hfit : piece.length ≤ maxMessageSize) :
      RunsCut maxmem { st with
        held := some piece, toServer := rest, handed := st.handed ++ [recvBuffer piece] } ops rets
  | answer {st : Session} {ops : List Op} {rets : List Ret} {msg reply : Str} {server : Server}
      (h : RunsCut maxmem st ops rets) (hheld : st.held = some msg)
      (hiter : st.server.iteration msg = .ok (server, reply)) :
      RunsCut maxmem { st with server, held := none, toClient := st.toClient ++ reply } ops rets
  | finish {st : Session} {ops : List Op} {rets : List Ret} {op : Op} {response : HTTPResponse}
      {ret : Ret} (h : RunsCut maxmem st ops rets) (hwaiting : st.waiting = some op)
      (hpending : st.toClient ≠ [])
      (hresponse : receiveResponse (st.toClient.take maxMessageSize) = .ok response)
      (hresult : Client.result op response = .ok ret) :
      RunsCut maxmem { st with waiting := none, toClient := st.toClient.drop maxMessageSize }
        ops (rets ++ [ret])

variable {maxmem : UInt32} {st : Session} {ops : List Op} {rets : List Ret}

/-- A session in which nothing is cut is one of them. -/
theorem Runs.runsCut (h : Runs maxmem st ops rets) : RunsCut maxmem st ops rets := by
  induction h with
  | start => exact .start
  | call _ hidle hmsg ih => exact ih.call hidle hmsg
  | recv _ hrunning hfree hpending ih =>
    refine ih.recv hrunning hfree (List.take_append_drop _ _).symm ?_ (List.length_take_le _ _)
    intro hnil
    rcases List.take_eq_nil_iff.mp hnil with h0 | h0
    · exact absurd h0 (by decide)
    · exact hpending h0
  | answer _ hheld hiter ih => exact ih.answer hheld hiter
  | finish _ hwaiting hpending hresponse hresult ih =>
    exact ih.finish hwaiting hpending hresponse hresult

/-- The loop is free, or it has received a lone newline, which ends it. -/
def Blocked (held : Option Str) : Prop := held = none ∨ held = some [10]

/-- Where a session with cut requests stands: as without cuts, but for a newline that may be left
of a request and for a piece of a request that may be held. -/
inductive StandsCut (maxmem : UInt32) (st : Session) (ops : List Op) (rets : List Ret) : Prop
  | idle (hwaiting : st.waiting = none) (hheld : Blocked st.held) (hin : Spare st.toServer)
      (hout : st.toClient = []) (hrun : Client.run maxmem ops = .ok (st.server, rets))
  | sent {done : List Op} {op : Op} {l msg : Str} (hops : ops = done ++ [op])
      (hwaiting : st.waiting = some op) (hheld : Blocked st.held) (hout : st.toClient = [])
      (hmsg : Client.message op = .ok msg) (hl : Spare l) (hin : st.toServer = l ++ msg)
      (hrun : Client.run maxmem done = .ok (st.server, rets))
  | held {done : List Op} {op : Op} {l msg piece : Str} (hops : ops = done ++ [op])
      (hwaiting : st.waiting = some op) (hheld : st.held = some piece) (hout : st.toClient = [])
      (hmsg : Client.message op = .ok msg) (hl : Spare l) (hin : piece ++ st.toServer = l ++ msg)
      (hrun : Client.run maxmem done = .ok (st.server, rets))
  | replied {done : List Op} {op : Op} {msg : Str} {s : Server} (hops : ops = done ++ [op])
      (hwaiting : st.waiting = some op) (hheld : Blocked st.held) (hin : Spare st.toServer)
      (hout : 0 ∉ st.toClient) (hmsg : Client.message op = .ok msg)
      (hiter : s.iteration msg = .ok (st.server, st.toClient))
      (hrun : Client.run maxmem done = .ok (s, rets))

theorem RunsCut.server_inv (h : RunsCut maxmem st ops rets) : st.server.Inv := by
  induction h with
  | start => exact Server.inv_new maxmem
  | call _ _ _ ih => exact ih
  | recv _ _ _ _ _ _ ih => exact ih
  | answer _ _ hiter ih => exact Server.inv_iteration ih hiter
  | finish _ _ _ _ _ ih => exact ih

/-- Every session with cut requests whose calls are carried stands somewhere. -/
theorem RunsCut.stands (h : RunsCut maxmem st ops rets) (hops : ∀ op ∈ ops, Carried op) :
    StandsCut maxmem st ops rets := by
  induction h with
  | start => exact .idle rfl (.inl rfl) (.inl rfl) rfl rfl
  | call h hidle hmsg ih =>
    cases ih fun o ho => hops o (List.mem_append_left _ ho) with
    | idle hwaiting hheld hin hout hrun => exact .sent rfl rfl hheld hout hmsg hin rfl hrun
    | sent _ hwaiting => cases hidle.symm.trans hwaiting
    | held _ hwaiting => cases hidle.symm.trans hwaiting
    | replied _ hwaiting => cases hidle.symm.trans hwaiting
  | recv h hrunning hfree hpending hne hfit ih =>
    cases ih hops with
    | idle hwaiting hheld hin hout hrun =>
      obtain ⟨rfl, rfl⟩ := hin.cut hpending hne
      exact .idle hwaiting (.inr rfl) (.inl rfl) hout hrun
    | sent hops' hwaiting hheld hout hmsg hl hin hrun =>
      exact .held hops' hwaiting rfl hout hmsg hl (hpending.symm.trans hin) hrun
    | held _ _ hheld => cases hfree.symm.trans hheld
    | replied hops' hwaiting hheld hin hout hmsg hiter hrun =>
      obtain ⟨rfl, rfl⟩ := hin.cut hpending hne
      exact .replied hops' hwaiting (.inr rfl) (.inl rfl) hout hmsg hiter hrun
  | @answer st _ _ msg reply server h hheld' hiter ih =>
    -- a lone newline is not answered
    have hfree : ¬ Blocked st.held := by
      rintro (hnone | h10)
      · cases hheld'.symm.trans hnone
      · cases hheld'.symm.trans h10
        rw [st.server.iteration_newline] at hiter
        cases hiter
    cases ih hops with
    | idle _ hheld => exact absurd hheld hfree
    | sent _ _ hheld => exact absurd hheld hfree
    | held hops' hwaiting hheld hout hmsg hl hin hrun =>
      cases hheld.symm.trans hheld'
      have hop := hops _ (hops' ▸ List.mem_append_right _ List.mem_cons_self)
      obtain ⟨hrest, hiter'⟩ := Server.iteration_cut hop hmsg hl hin hiter
      refine .replied hops' hwaiting (.inl rfl) hrest ?_ hmsg ?_ hrun
      · rw [hout, List.nil_append]
        exact zero_notMem_reply h.server_inv hiter
      · rwa [hout, List.nil_append]
    | replied _ _ hheld => exact absurd hheld hfree
  | finish h hwaiting' hpending hresponse hresult ih =>
    cases ih hops with
    | idle hwaiting => cases hwaiting.symm.trans hwaiting'
    | sent _ _ _ hout => exact absurd hout hpending
    | held _ _ _ hout => exact absurd hout hpending
    | replied hops' hwaiting hheld hin hout hmsg hiter hrun =>
      cases hwaiting.symm.trans hwaiting'
      have hlen := length_le_of_response hout hresponse
      rw [List.take_of_length_le hlen] at hresponse
      refine .idle rfl hheld hin (List.drop_of_length_le hlen) ?_
      rw [hops']
      exact run_snoc hrun (step_eq_ok.mpr ⟨_, _, _, hmsg, hiter, hresponse, hresult⟩)

/-- With cut requests as without: the calls that are over have been served one after the other, and
the one under way once or not yet. -/
theorem StandsCut.served (h : StandsCut maxmem st ops rets) :
    st.waiting = none ∧ Client.run maxmem ops = .ok (st.server, rets) ∨
    ∃ done op s, ops = done ++ [op] ∧ st.waiting = some op ∧
      Client.run maxmem done = .ok (s, rets) ∧ (st.server = s ∨ ∃ msg reply,
        Client.message op = .ok msg ∧ s.iteration msg = .ok (st.server, reply)) := by
  cases h with
  | idle hwaiting _ _ _ hrun => exact .inl ⟨hwaiting, hrun⟩
  | sent hops hwaiting _ _ _ _ _ hrun => exact .inr ⟨_, _, _, hops, hwaiting, hrun, .inl rfl⟩
  | held hops hwaiting _ _ _ _ _ hrun => exact .inr ⟨_, _, _, hops, hwaiting, hrun, .inl rfl⟩
  | replied hops hwaiting _ _ _ hmsg hiter hrun =>
    exact .inr ⟨_, _, _, hops, hwaiting, hrun, .inr ⟨_, _, hmsg, hiter⟩⟩

/-- However the requests of a session are cut on their way, if the calls are carried: those that
are over have returned what a local cache returns on the calls delivered, and the server's cache
is this local cache, before or after the call that is under way. -/
theorem cut_requests_safe (h : RunsCut maxmem st ops rets) (hops : ∀ op ∈ ops, Carried op) :
    ∃ cache answers, Impl.run maxmem (ops.map delivered) = .ok (cache, answers) ∧
      Beside maxmem st ops rets cache answers :=
  beside_of_served hops (h.stands hops).served

/-- A `set` that is answered before its last newline has come: while it waits, the server's cache
is the local one after it. -/
theorem cut_requests_safe_newline : ∃ st cache,
    RunsCut 12 st [.set (str "a") (stringToVal (str "b"))] [] ∧ st.toServer = [10] ∧
      st.waiting ≠ none ∧
      st.server.cache.cacheMap.lookup (str "a") = some (stringToVal (str "b")) ∧
      Beside 12 st [.set (str "a") (stringToVal (str "b"))] [] cache [.code 0] := by
  have hcall : RunsCut 12 _ [.set (str "a") (stringToVal (str "b"))] [] :=
    RunsCut.start.call rfl rfl
  have hrecv := hcall.recv rfl rfl
    (show _ = str "PUT\n/key/a/b\nHTTP v1.1\n \n " ++ [10] from rfl) (by decide) (by decide)
  have hanswer := hrecv.answer rfl rfl
  obtain ⟨cache, answers, hlocal, hbeside⟩ := cut_requests_safe hanswer (by decide)
  have hanswers : (Impl.run 12 ([.set (str "a") (stringToVal (str "b"))].map delivered)).map
      Prod.snd = .ok [.code 0] := by decide
  rw [hlocal] at hanswers
  obtain rfl : answers = _ := Except.ok.inj hanswers
  exact ⟨_, cache, hanswer, rfl, Option.some_ne_none _, by decide, hbeside⟩

end Session

end NetCache
