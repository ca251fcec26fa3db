import NetCache.PutGrammar
import NetCache.Reference

/-!
# What a GET is answered with

The replies of the loop against the messages before. A GET of a key is answered with the value of
the last PUT of this key that was answered 200, if no DELETE has removed it since and it is still
there, and else with 404 (`get_answer_current`). Which key a message is about is read off its URI
as the handlers cut it: a PUT is about what stands before the first slash behind `/key/`, and a
DELETE about what follows the first character behind it.
-/

namespace NetCache

open Lib Lib.Recency Lib.Replay Cache

/-- Key and value string that `serv_PUT` cuts out of a URI: those of the grammar or, where no slash
follows the key, the rest of the URI and the whole of it. -/
def CutInto (uri k v : Str) : Prop :=
  IsPut uri k v ∨ uri = str "/key/" ++ k ∧ 47 ∉ k ∧ v = uri

/-- The reply to a PUT that was stored. -/
def storedReply : Str :=
  ({ HTTPResponse.new with code := str "200", body := str "Element successfully set" } :
    HTTPResponse).toString

/-- A message and its reply: a PUT of `b` under `k` that was answered 200. -/
def Puts (k : Str) (b : Blob) (e : Str × Str) : Prop :=
  (∃ request v, receiveRequest e.1 = .ok request ∧ request.verb = str "PUT" ∧
    CutInto request.uri k v ∧ b = stringToVal v) ∧ e.2 = storedReply

/-- A DELETE that removes `k`: its URI has one character more. -/
def Deletes (k : Str) (e : Str × Str) : Prop :=
  ∃ request c, receiveRequest e.1 = .ok request ∧ Names (str "DELETE") (c :: k) request

theorem not_isPut_noSlash {t : Str} (ht : 47 ∉ t) (k v : Str) : ¬ IsPut (str "/key/" ++ t) k v := by
  intro h
  rw [List.append_cancel_left h.uri_eq] at ht
  simp at ht

/-- `putPair` cuts so, where no position wraps. -/
theorem putPair_eq_ok {uri k v : Str} (hkey : uri.take 5 = str "/key/")
    (hlen : uri.length < 2 ^ 32) : putPair uri = .ok (k, v) ↔ CutInto uri k v := by
  rcases isPut_or_noSlash hkey with ⟨k', v', hput⟩ | ⟨t, rfl, ht⟩
  · have hcut : putPair uri = .ok (k', v') := by
      rw [hput.uri_eq] at hlen ⊢
      exact putPair_slash hput.slash hlen
    rw [hcut]
    constructor
    · rintro ⟨⟩
      exact .inl hput
    · rintro (h | ⟨rfl, hk, -⟩)
      · obtain ⟨rfl, rfl⟩ := hput.unique h
        rfl
      · exact absurd hput (not_isPut_noSlash hk k' v')
  · rw [length_key] at hlen
    rw [putPair_noSlash ht, List.take_of_length_le (by omega)]
    constructor
    · rintro ⟨⟩
      exact .inr ⟨rfl, ht, rfl⟩
    · rintro (h | ⟨heq, -, rfl⟩)
      · exact absurd h (not_isPut_noSlash ht k v)
      · rw [List.append_cancel_left heq]

theorem callOf_eq_some {msg : Str} {op : Op} : callOf msg = some op ↔
    ∃ request, receiveRequest msg = .ok request ∧ call request = .ok (some op) := by
  unfold callOf
  cases receiveRequest msg with
  | error e => simp
  | ok request =>
    cases hcall : call request with
    | error e => simp [hcall, Except.toOption]
    | ok op' => cases op' <;> simp [hcall, Except.toOption]

/-- The calls of requests with the prefix `/key/`, other than GET. -/
theorem verb_of_call {request : HTTPRequest} {op : Op} (h : call request = .ok (some op)) :
    (∀ k b, op = .set k b → request.verb = str "PUT") ∧
      ∀ k, op = .del k → request.verb = str "DELETE" ∧ substrToEnd request.uri 6 = .ok k := by
  unfold call at h
  split at h
  · split at h
    · cases h
      exact ⟨nofun, nofun⟩
    · split at h
      · cases h
        exact ⟨nofun, nofun⟩
      · cases h
  · split at h
    · split at h
      · rename_i hput
        obtain ⟨kv, -, hop⟩ := map_eq_ok.mp h
        cases hop
        exact ⟨fun _ _ _ => hput, nofun⟩
      · split at h
        · rename_i hdel
          obtain ⟨key, hkey, hop⟩ := map_eq_ok.mp h
          cases hop
          refine ⟨nofun, ?_⟩
          rintro k ⟨⟩
          exact ⟨hdel, hkey⟩
        · cases h
    · cases h

/-- The messages that set a key. -/
theorem callOf_eq_set {msg : Str} {k : Str} {b : Blob} : callOf msg = some (.set k b) ↔
    ∃ request v, receiveRequest msg = .ok request ∧ request.verb = str "PUT" ∧
      CutInto request.uri k v ∧ b = stringToVal v := by
  rw [callOf_eq_some]
  constructor
  · rintro ⟨request, hreq, hcall⟩
    obtain ⟨hkey, v, hput, rfl⟩ := set_of_call hcall
    have hlen := (uri_of_receive hreq).2
    exact ⟨request, v, hreq, (verb_of_call hcall).1 k _ rfl,
      (putPair_eq_ok hkey (by omega)).mp hput, rfl⟩
  · rintro ⟨request, v, hreq, hverb, hcut, rfl⟩
    have hlen := (uri_of_receive hreq).2
    have hkey : request.uri.take 5 = str "/key/" := by
      rcases hcut with hput | ⟨huri, -⟩
      · exact take_of_isPut hput
      · rw [huri]
        exact take_key k
    have huri : request.uri = str "/key/" ++ request.uri.drop 5 := by
      rw [← hkey, List.take_append_drop]
    have hpair := (putPair_eq_ok hkey (by omega)).mpr hcut
    rw [huri] at hpair
    exact ⟨request, hreq, call_put ⟨hverb, huri⟩ hpair⟩

/-- The messages that delete a key. -/
theorem callOf_eq_del {msg k : Str} : callOf msg = some (.del k) ↔
    ∃ request c, receiveRequest msg = .ok request ∧ Names (str "DELETE") (c :: k) request := by
  rw [callOf_eq_some]
  constructor
  · rintro ⟨request, hreq, hcall⟩
    obtain ⟨hverb, hcut⟩ := (verb_of_call hcall).2 k rfl
    have hkey : request.uri.take 5 = str "/key/" := by
      rcases call_ok hcall with ⟨hop, -⟩ | ⟨hkey, -⟩
      · cases hop
      · exact hkey
    have huri : request.uri = str "/key/" ++ request.uri.drop 5 := by
      rw [← hkey, List.take_append_drop]
    have hlen : 6 ≤ request.uri.length := by
      unfold substrToEnd at hcut
      split at hcut
      · assumption
      · cases hcut
    rw [substrToEnd, if_pos hlen] at hcut
    cases hcut
    refine ⟨request, request.uri[5], hreq, hverb, ?_⟩
    rw [← List.drop_eq_getElem_cons (by omega)]
    exact huri
  · rintro ⟨request, c, hreq, hnames⟩
    refine ⟨request, hreq, ?_⟩
    rw [call_delete hnames, if_neg (List.cons_ne_nil c k), List.tail_cons]

/-! ## Messages as updates -/

/-- What a message and its reply say about the stored entries. -/
def exchangeUpdate (e : Str × Str) : Update Str Blob :=
  match callOf e.1 with
  | some (.set k b) => if e.2 = storedReply then .put k b else .keep
  | some (.del k) => .drop k
  | _ => .keep

theorem puts_of_put {k : Str} {b : Blob} {e : Str × Str} (h : exchangeUpdate e = .put k b) :
    Puts k b e := by
  unfold exchangeUpdate at h
  split at h
  · rename_i hcall
    split at h
    · rename_i hreply
      cases h
      exact ⟨callOf_eq_set.mp hcall, hreply⟩
    · cases h
  · cases h
  · cases h

/-- A message that leaves a key alone is no PUT of it that was stored and no DELETE of it. -/
theorem not_puts_of_leaves {k : Str} {e : Str × Str} (h : (exchangeUpdate e).Leaves k) :
    (∀ b, ¬ Puts k b e) ∧ ¬ Deletes k e := by
  constructor
  · rintro b ⟨hcall, hreply⟩
    rw [exchangeUpdate, callOf_eq_set.mpr hcall] at h
    simp only [hreply, if_true] at h
    exact h rfl
  · intro hcall
    rw [exchangeUpdate, callOf_eq_del.mpr hcall] at h
    exact h rfl

/-- A call of the cache loses entries at most. -/
theorem within_step {c c' : Impl} {m : Entries} (hr : Refines c m) {op : Op} {ret : Ret}
    (h : c.step op = .ok (c', ret)) :
    Within c'.cacheMap ((update op ret).apply c.cacheMap) := by
  obtain ⟨c'', h', hr', -⟩ := hr.step op
  cases h.symm.trans h'
  intro k b hb
  rw [hr'.lookup] at hb
  have hsame : Same c.cacheMap m := hr.lookup
  exact (hsame.apply _ k).trans (within_lruStep (wrapping c.maxmem) m op k b hb)

namespace Server

/-- A message changes the stored entries as it and its reply say, and loses others at most. -/
theorem within_iteration {s s' : Server} {m : Entries} (hr : Refines s.cache m) {msg reply : Str}
    (h : s.iteration msg = .ok (s', reply)) :
    Within s'.cache.cacheMap ((exchangeUpdate (msg, reply)).apply s.cache.cacheMap) := by
  simp only [iteration, bind_eq_ok, dispatch_eq] at h
  obtain ⟨request, hreq, ⟨s₁, response⟩, hdisp, h⟩ := h
  cases h
  obtain ⟨⟨cache, response'⟩, hperf, hres⟩ := map_eq_ok.mp hdisp
  cases hres
  rcases perform_ok hperf with ⟨hcall, rfl⟩ | ⟨op, ret, hcall, hstep, hanswer⟩
  · have hnone : callOf msg = none := by simp [callOf, hreq, hcall, Except.toOption]
    rw [exchangeUpdate, hnone]
    exact .refl _
  · have hwithin := within_step hr hstep
    have hsome : callOf msg = some op := callOf_eq_some.mpr ⟨request, hreq, hcall⟩
    suffices hupdate : exchangeUpdate (msg, response'.toString) = update op ret by
      rwa [hupdate]
    rw [exchangeUpdate, hsome]
    obtain ⟨c', hstep', -⟩ := hr.step op
    cases hstep.symm.trans hstep'
    cases op with
    | set k b =>
      -- the reply tells a PUT that was stored from one that was refused
      cases hval : (wrapping s.cache.maxmem).refuses b with
      | true =>
        simp only [lruStep, hval, if_true] at hanswer ⊢
        cases hanswer
        rfl
      | false =>
        simp only [lruStep, hval, Bool.false_eq_true, if_false] at hanswer ⊢
        cases hanswer
        rfl
    | get k => rfl
    | del k => rfl
    | spaceUsed => rfl

/-- What is stored after a run is what its messages and replies say. -/
theorem within_loop {maxmem : UInt32} {msgs replies : List Str} {s : Server}
    (h : (new maxmem).loop msgs = .ok (s, replies)) :
    Within s.cache.cacheMap (replay ((msgs.zip replies).map exchangeUpdate)) := by
  have hnew := inv_new maxmem
  induction msgs using List.reverseRecOn generalizing s replies with
  | nil =>
    cases h
    exact .refl ∅
  | append_singleton msgs msg ih =>
    rw [loop_eq_run hnew] at h
    obtain ⟨s₁, before, last, hbefore, hlast, rfl⟩ := Machine.run_of_append h
    obtain ⟨s₂, reply, _, hiter, hnil, rfl⟩ := Machine.run_cons_ok.mp hlast
    cases hnil
    rw [← loop_eq_run hnew] at hbefore
    obtain ⟨-, m, hm⟩ := Reachable.inv ⟨maxmem, msgs, before, hbefore⟩
    have hlen := length_replies hnew hbefore
    rw [List.zip_append hlen.symm, List.map_append]
    exact (ih hbefore).snoc (within_iteration hm.toRefines hiter)

end Server

/-- After whatever `recv` has handed over, a GET of a key is answered with the value of the last PUT
of this key that was answered 200 and that no DELETE has removed since; or the key is not stored,
and the answer is 404. -/
theorem get_answer_current {maxmem : UInt32} {msgs : List Received} {replies : List Str}
    {s : Server} (h : (Server.new maxmem).loop (msgs.map Received.bytes) = .ok (s, replies))
    {k : Str} {request : HTTPRequest} (hget : Names (str "GET") k request) :
    ∃ s' response, s.dispatch request = .ok (s', response) ∧
      (s.cache.cacheMap.lookup k = none ∧ response.code = str "404" ∨
        ∃ b before e after, s.cache.cacheMap.lookup k = some b ∧
          response = { HTTPResponse.new with
            code := str "200", body := JSON.pairText k b.bytes } ∧
          (msgs.map Received.bytes).zip replies = before ++ e :: after ∧ Puts k b e ∧
          ∀ e' ∈ after, (∀ b', ¬ Puts k b' e') ∧ ¬ Deletes k e') := by
  obtain ⟨-, m, hm⟩ := Server.Reachable.inv ⟨maxmem, _, replies, h⟩
  obtain ⟨cache, hcache, -⟩ := hm.toRefines.get k
  have hstep : s.cache.step (.get k) = .ok (cache, .value (.ofEntry (m.lookup k))) :=
    Impl.step_eq_ok.mpr (.get hcache)
  have hstored := hm.toRefines.lookup k
  cases hb : m.lookup k with
  | none =>
    rw [hb] at hstep hstored
    exact ⟨_, _, dispatch_of_call (call_get hget) hstep rfl, .inl ⟨hstored, rfl⟩⟩
  | some b =>
    rw [hb] at hstep hstored
    refine ⟨_, _, dispatch_of_call (call_get hget) hstep ((hm.entries k b hb).answer_get k), .inr ?_⟩
    obtain ⟨before, after, hsplit, hafter⟩ := lookup_replay (Server.within_loop h k b hstored)
    obtain ⟨l, l', hzip, rfl, hl'⟩ := List.map_eq_append_iff.mp hsplit
    obtain ⟨e, l'', rfl, he, rfl⟩ := List.map_eq_cons_iff.mp hl'
    refine ⟨b, l, e, l'', hstored, rfl, hzip, puts_of_put he, ?_⟩
    intro e' he'
    exact not_puts_of_leaves (hafter _ (List.mem_map_of_mem he'))

/-- A value that is overwritten before the GET. -/
theorem get_answer_current_overwritten :
    let msgs : List Received := [⟨str "PUT\n/key/a/b\nHTTP v1.1\n \n \n", by decide⟩,
      ⟨str "PUT\n/key/a/c\nHTTP v1.1\n \n \n", by decide⟩]
    ∃ s replies s' response b before e after,
      (Server.new 12).loop (msgs.map Received.bytes) = .ok (s, replies) ∧
      s.dispatch (Client.getRequest (str "a")) = .ok (s', response) ∧
      s.cache.cacheMap.lookup (str "a") = some b ∧ b.bytes = str "c" ∧
      response = { HTTPResponse.new with
        code := str "200", body := JSON.pairText (str "a") b.bytes } ∧
      (msgs.map Received.bytes).zip replies = before ++ e :: after ∧ Puts (str "a") b e ∧
      ∀ e' ∈ after, (∀ b', ¬ Puts (str "a") b' e') ∧ ¬ Deletes (str "a") e' := by
  intro msgs
  have hrun : ((Server.new 12).loop (msgs.map Received.bytes)).map (fun r =>
      r.1.cache.cacheMap.lookup (str "a")) = .ok (some (stringToVal (str "c"))) := by decide
  obtain ⟨⟨s, replies⟩, hloop, hstored⟩ := map_eq_ok.mp hrun
  have hnames : Names (str "GET") (str "a") (Client.getRequest (str "a")) := ⟨rfl, rfl⟩
  obtain ⟨s', response, hdisp, ⟨hnone, -⟩ | ⟨b, before, e, after, hb, hanswer⟩⟩ :=
    get_answer_current hloop hnames
  · cases hstored.symm.trans hnone
  · cases hstored.symm.trans hb
    exact ⟨s, replies, s', response, _, before, e, after, hloop, hdisp, hb, rfl, hanswer⟩

end NetCache
