import NetCache.Segments

/-!
# Replies that arrive in pieces

The client's `recv` may return the first part of a reply, and the parser takes what there is. The
lines and the JSON tokens of a part are those of the whole, up to where the last one is cut
(`Lib.Tokens.Cut`). So a cut reply makes the call fail or gives it what the whole reply would,
except that a `get` may return the first bytes of the value (`cut_reply`).
-/

namespace NetCache

open Lib Cache

/-- Of cut lines the parsers make the same header lines and a beginning of the body. -/
theorem splitHeaders_cut {ts' ts hs' hs : List Str} {body' body : Str} (hcut : Tokens.Cut ts' ts)
    (h' : splitHeaders ts' = .ok (hs', body')) (h : splitHeaders ts = .ok (hs, body)) :
    hs' = hs ∧ body' <+: body := by
  obtain ⟨sp', rest', rfl, hhs', hsp'⟩ := splitHeaders_ok.mp h'
  obtain ⟨sp, rest, rfl, hhs, hsp⟩ := splitHeaders_ok.mp h
  clear h' h
  induction hs' generalizing hs with
  | nil =>
    obtain ⟨ts₁, hts, hcut⟩ := Tokens.Cut.of_cons hcut (List.cons_ne_nil _ _)
    cases hs with
    | nil =>
      cases hts
      exact ⟨rfl, hcut.head⟩
    | cons line hs =>
      cases hts
      rw [hhs _ List.mem_cons_self] at hsp'
      cases hsp'
  | cons line hs' ih =>
    have hne : hs' ++ sp' :: body' :: rest' ≠ [] := by simp
    obtain ⟨ts₁, hts, hcut⟩ := Tokens.Cut.of_cons hcut hne
    cases hs with
    | nil =>
      cases hts
      rw [hhs' _ List.mem_cons_self] at hsp
      cases hsp
    | cons line' hs =>
      cases hts
      obtain ⟨hsame, hbody⟩ := @ih hs (fun l hl => hhs' l (List.mem_cons_of_mem _ hl)) hcut
        (fun l hl => hhs l (List.mem_cons_of_mem _ hl))
      exact ⟨congrArg _ hsame, hbody⟩

/-- If a beginning of a reply is parsed, its code is that of the reply, and its body a beginning
of that of the reply. -/
theorem receiveResponse_cut {reply piece : Str} (h0 : 0 ∉ reply) (hpiece : piece <+: reply)
    {r' r : HTTPResponse} (h' : receiveResponse piece = .ok r')
    (h : receiveResponse reply = .ok r) : r'.code = r.code ∧ r'.body <+: r.body := by
  have h0' : 0 ∉ piece := fun hmem => h0 (hpiece.subset hmem)
  rw [receiveResponse, receive_of_short (length_lt_of_receiveResponse h0' h'), ok_bind,
    cString_of_zero_notMem h0', HTTPResponse.parseRawResponse_eq] at h'
  rw [receiveResponse, receive_of_short (length_lt_of_receiveResponse h0 h), ok_bind,
    cString_of_zero_notMem h0, HTTPResponse.parseRawResponse_eq] at h
  have hcut := Tokens.cut_of_prefix (p := isNewline) hpiece
  split at h'
  · rename_i version' code' ts' htokens'
    split at h
    · rename_i version code ts htokens
      obtain ⟨⟨hs', body'⟩, hsplit', rfl⟩ := map_eq_ok.mp h'
      obtain ⟨⟨hs, body⟩, hsplit, rfl⟩ := map_eq_ok.mp h
      rw [htokens', htokens] at hcut
      have hne : ts' ≠ [] := by
        rintro rfl
        cases hsplit'
      obtain ⟨_, hts, hcut⟩ := hcut.of_cons (List.cons_ne_nil code' ts')
      cases hts
      obtain ⟨_, hts, hcut⟩ := hcut.of_cons hne
      cases hts
      exact ⟨rfl, (splitHeaders_cut hcut hsplit' hsplit).2⟩
    · cases h
  · cases h'

/-- A beginning of the text of a pair of words gives, under the key, a beginning of the value. -/
theorem JSON.find_cut {k v : Str} (hk : IsWord k) (hv : IsWord v) {body : Str}
    (hbody : body <+: pairText k v) {j : JSON} (hparse : new.parseString body = .ok j) {v' : Str}
    (hfind : j.find k = some v') : v' <+: v ∧ v' ≠ [] := by
  obtain ⟨t, ht, hbegins⟩ := begins_token hk hv.nul hbody hparse hfind
  rw [Tokens.tokens_of_isToken hv.token, List.mem_singleton] at ht
  have hmem := List.mem_of_mem_tail (mem_tokens_of_find hparse hfind).2
  exact ⟨ht ▸ hbegins, (Tokens.isToken_of_mem hmem).1.1⟩

/-- What the reply to a call, whose local answer is `ret`, holds that the client looks into: what
the client makes `ret` of, with a value in one pair of words, or the text of a count. -/
def Body : Op → Ret → HTTPResponse → Prop
  | .get k, ret, response => Client.result (.get k) response = .ok ret ∧
      (response.code = str "200" →
        ∃ v, JSON.IsWord k ∧ JSON.IsWord v ∧ response.body = JSON.pairText k v)
  | .spaceUsed, ret, response => ∃ n : UInt32, ret = .used n.toNat ∧ response.body <+: countText n
  | op, ret, response => Client.result op response = .ok ret

/-- The client parses the response that was dispatched. -/
theorem response_of_dispatch {s s₁ s' : Server} {request : HTTPRequest}
    {response₁ response : HTTPResponse} {reply : Str} (hreq : request.Encodable)
    (hlen : request.toString.length < maxMessageSize)
    (hdisp : s.dispatch request = .ok (s₁, response₁)) (hresp : response₁.Encodable)
    (hiter : s.iteration request.toString = .ok (s', reply))
    (hresponse : receiveResponse reply = .ok response) : response = response₁ := by
  rw [Server.iteration, receiveRequest_toString hreq hlen, ok_bind, hdisp, ok_bind] at hiter
  cases hiter
  have hlen' := length_lt_of_receiveResponse hresp.zero_notMem hresponse
  exact Except.ok.inj (hresponse.symm.trans (receiveResponse_toString hresp hlen'))

/-- What a `get` finds that is answered with 200 is one pair of words. -/
theorem words_of_get {s s' : Server} {m : Entries} (hm : Holds Sendable s.cache m) {k : Str}
    (hop : Carried (.get k)) {reply : Str} {response : HTTPResponse}
    (hiter : s.iteration (Client.getRequest k).toString = .ok (s', reply))
    (hresponse : receiveResponse reply = .ok response) (hcode : response.code = str "200") :
    ∃ v, JSON.IsWord k ∧ JSON.IsWord v ∧ response.body = JSON.pairText k v := by
  obtain ⟨hk, hlen⟩ := hop
  have hreq : (Client.getRequest k).Encodable :=
    encodable_request (by decide) (isLine_key hk.plain.1 hk.plain.2)
  obtain ⟨cache, hget, -⟩ := hm.toRefines.get k
  have hcall : call (Client.getRequest k) = .ok (some (.get k)) := call_get ⟨rfl, rfl⟩
  have hstep : s.cache.step (.get k) = .ok (cache, .value (.ofEntry (m.lookup k))) :=
    Impl.step_eq_ok.mpr (.get hget)
  cases hb : m.lookup k with
  | none =>
    rw [hb] at hstep
    cases response_of_dispatch hreq hlen (dispatch_of_call hcall hstep rfl)
      (encodable_response (by decide) (by decide)) hiter hresponse
    exact absurd hcode (by decide)
  | some b =>
    obtain ⟨hclean, hshort⟩ := (hm.entries k b hb).response
    rw [hb] at hstep
    have hsize : b.size.toNat + 1 ≤ 1024 := by
      rw [b.length_eq, maxMessageSize] at hshort
      omega
    have hanswer := answer_hit k hsize
    rw [cString_of_zero_notMem hclean.isWord.nul] at hanswer
    cases response_of_dispatch hreq hlen (dispatch_of_call hcall hstep hanswer)
      (encodable_response (by decide) (isLine_pairText hk.plain hclean.plain)) hiter hresponse
    exact ⟨b.bytes, hk.isWord, hclean.isWord, rfl⟩

section Reply

variable {s : Server} {op : Op} {cache : Impl} {ret : Ret} {msg reply : Str}

/-- Where the answer is no count, or a clean one, the client makes it of the reply. -/
theorem Delivers.result (h : Delivers s op cache ret msg reply) (hclean : CountsClean [ret]) :
    ∃ response, receiveResponse reply = .ok response ∧ Client.result op response = .ok ret := by
  obtain ⟨msg', reply', response, hmsg, hiter, hresponse, hresult⟩ :=
    Session.step_eq_ok.mp ((h.returns _).mpr ⟨hclean, rfl⟩)
  cases hmsg.symm.trans h.message
  cases hiter.symm.trans h.iteration
  exact ⟨response, hresponse, hresult⟩

/-- The reply to a call that is carried is parsed. -/
theorem Delivers.body (h : Delivers s op cache ret msg reply) {m : Entries}
    (hm : Holds Sendable s.cache m) (hop : Carried op) :
    ∃ response, receiveResponse reply = .ok response ∧ Body op ret response := by
  cases op with
  | set k v =>
    cases Impl.step_eq_ok.mp h.made
    exact h.result (countsClean_of_ne (by simp))
  | del k =>
    cases Impl.step_eq_ok.mp h.made
    exact h.result (countsClean_of_ne (by simp))
  | get k =>
    cases Impl.step_eq_ok.mp h.made
    obtain ⟨response, hresponse, hresult⟩ := h.result (countsClean_of_ne (by simp))
    have hmsg := h.message
    cases hmsg
    exact ⟨response, hresponse, hresult, words_of_get hm hop h.iteration hresponse⟩
  | spaceUsed =>
    cases Impl.step_eq_ok.mp h.made
    have hmsg := h.message
    cases hmsg
    obtain ⟨-, rfl⟩ := Prod.mk.inj (Except.ok.inj ((iteration_spaceUsed s).symm.trans h.iteration))
    obtain ⟨response, hresponse, hbody⟩ := receiveResponse_count s.cache.spaceUsed
    exact ⟨response, hresponse, _, rfl, hbody⟩

end Reply

/-- What a call makes of a beginning of the reply's body: the same as of the whole, but for a `get`
that finds a beginning of the value. -/
theorem Client.result_cut {op : Op} {r' r : HTTPResponse} {ret' ret : Ret} (hr : Body op ret r)
    (hcode : r'.code = r.code) (hbody : r'.body <+: r.body) (h' : result op r' = .ok ret') :
    ret' = ret ∨ ∃ k v v', op = .get k ∧
      ret = .value (.ofEntry (some (stringToVal v))) ∧
      ret' = .value (.ofEntry (some (stringToVal v'))) ∧ v' <+: v ∧ v' ≠ [] := by
  cases op with
  | set k v =>
    have h : result (.set k v) r = .ok ret := hr
    rw [result, hcode] at h'
    exact .inl (Except.ok.inj (h'.symm.trans h))
  | del k =>
    have h : result (.del k) r = .ok ret := hr
    rw [result, hcode] at h'
    exact .inl (Except.ok.inj (h'.symm.trans h))
  | get k =>
    obtain ⟨h, hwords⟩ := hr
    rw [result, hcode] at h'
    rw [result] at h
    split at h
    · rename_i h200
      obtain ⟨v, hk, hv, hpair⟩ := hwords h200
      rw [if_pos h200, bind_eq_ok] at h'
      obtain ⟨j', hparse', h'⟩ := h'
      obtain ⟨j, hparse, hfind⟩ := JSON.find_parse_pairText hk hv
      rw [hpair] at h hbody
      simp only [hparse, ok_bind, hfind] at h
      split at h'
      · rename_i v' hfind'
        cases h
        cases h'
        obtain ⟨hbegins, hne⟩ := JSON.find_cut hk hv hbody hparse' hfind'
        exact .inr ⟨k, v, v', rfl, rfl, rfl, hbegins, hne⟩
      · cases h'
    · rename_i h200
      rw [if_neg h200] at h'
      exact .inl (Except.ok.inj (h'.symm.trans h))
  | spaceUsed =>
    obtain ⟨n, rfl, hcount⟩ := hr
    rw [result, bind_eq_ok] at h'
    obtain ⟨j', hparse', h'⟩ := h'
    split at h'
    · rename_i v' hfind'
      -- fewer than four bytes are not read as a count
      obtain ⟨n', hn', hret⟩ := bind_eq_ok.mp h'
      obtain ⟨-, rfl⟩ := count_of_body (hbody.trans hcount) hparse' hfind' hn'
      exact .inl (Except.ok.inj hret).symm
    · cases h'

namespace Session

variable {maxmem : UInt32} {st : Session} {ops : List Op} {rets : List Ret}

/-- In a session whose calls are carried, however their requests are cut: if of the reply to the
call under way the client receives only a beginning, then the call fails, or returns its local
answer, or is a `get` and returns the first bytes of the value. -/
theorem cut_reply (h : RunsCut maxmem st ops rets) (hops : ∀ op ∈ ops, Carried op) {op : Op}
    (hwaiting : st.waiting = some op) {piece : Str} (hpiece : piece <+: st.toClient)
    {response : HTTPResponse} {ret : Ret} (hresponse : receiveResponse piece = .ok response)
    (hresult : Client.result op response = .ok ret) :
    ∃ cache last, Impl.run maxmem (ops.map delivered) = .ok (cache, rets ++ [last]) ∧
      (ret = last ∨ ∃ k v v', op = .get k ∧ last = .value (.ofEntry (some (stringToVal v))) ∧
        ret = .value (.ofEntry (some (stringToVal v'))) ∧ v' <+: v ∧ v' ≠ []) := by
  have hnil : st.toClient ≠ [] := by
    intro hnil
    rw [hnil, List.prefix_nil] at hpiece
    cases hpiece
    cases hresponse
  cases h.stands hops with
  | idle hidle => cases hidle.symm.trans hwaiting
  | sent _ _ _ hout => exact absurd hout hnil
  | held _ _ _ hout => exact absurd hout hnil
  | replied hops' hwaiting' hheld hin hout hmsg hiter hrun =>
    cases hwaiting.symm.trans hwaiting'
    subst hops'
    have hop := hops op (List.mem_append_right _ List.mem_cons_self)
    obtain ⟨-, -, m, hm⟩ := run_carried (fun o ho => hops o (List.mem_append_left _ ho)) hrun
    obtain ⟨cache, last, msg, reply, hcall, hlocal⟩ := step_carried hops hrun
    cases hmsg.symm.trans hcall.message
    obtain ⟨-, rfl⟩ := Prod.mk.inj (Except.ok.inj (hiter.symm.trans hcall.iteration))
    obtain ⟨whole, hwhole, hbody⟩ := hcall.body hm hop
    obtain ⟨hcode, hbegins⟩ := receiveResponse_cut hout hpiece hresponse hwhole
    exact ⟨cache, last, hlocal, Client.result_cut hbody hcode hbegins hresult⟩

/-- The reply to a `get` of two bytes, cut after the first one. -/
theorem cut_reply_value : ∃ st, RunsCut 12 st
      [.set (str "a") (stringToVal (str "bc")), .get (str "a")] [.code 0] ∧
    ∃ piece response, piece <+: st.toClient ∧ receiveResponse piece = .ok response ∧
      Client.result (.get (str "a")) response =
        .ok (.value (.ofEntry (some (stringToVal (str "b"))))) ∧
    ∃ cache last, Impl.run 12 ([.set (str "a") (stringToVal (str "bc")), .get (str "a")].map
        delivered) = .ok (cache, [.code 0] ++ [last]) ∧
      (.value (.ofEntry (some (stringToVal (str "b")))) = last ∨
        ∃ k v v', Op.get (str "a") = .get k ∧ last = .value (.ofEntry (some (stringToVal v))) ∧
          .value (.ofEntry (some (stringToVal (str "b")))) =
            Ret.value (.ofEntry (some (stringToVal v'))) ∧ v' <+: v ∧ v' ≠ []) := by
  have hset : RunsCut 12 _ [.set (str "a") (stringToVal (str "bc"))] [] :=
    RunsCut.start.call rfl rfl
  have hrecv := hset.recv rfl rfl (List.append_nil _).symm (by decide) (by decide)
  have hanswer := hrecv.answer rfl rfl
  have hdone := hanswer.finish rfl (by decide) rfl rfl
  have hget := hdone.call (show _ from rfl) (show Client.message (.get (str "a")) = .ok _ from rfl)
  have hrecv' := hget.recv rfl rfl (List.append_nil _).symm (by decide) (by decide)
  have hanswer' := hrecv'.answer rfl rfl
  have hpiece : str "HTTP v1.1\n200\n \n\x7b a: b" <+: _ := List.prefix_append _ (str "c \x7d\n")
  exact ⟨_, hanswer', _, _, hpiece, rfl, by decide,
    cut_reply hanswer' (by decide) rfl hpiece rfl (by decide)⟩

end Session

end NetCache
