import NetCache.Client
import NetCache.Reachable

/-!
# Repeated and deleting requests

A request that is handled twice in a row leaves the cache as handled once, with the same response
(`dispatch_retry`). A DELETE slices its key one character later than GET and PUT do, so it
removes the key that it names on no cache that stores it (`delete_iff`).
-/

namespace NetCache

open Lib Lib.Recency Cache

/-- The same stored entries, capacity, used bytes and recency order. -/
structure SameContents (c c' : Impl) : Prop where
  stored : ∀ k, c'.cacheMap.lookup k = c.cacheMap.lookup k
  maxmem : c'.maxmem = c.maxmem
  used : c'.usedmem = c.usedmem
  order : c'.evictor.keyList.values = c.evictor.keyList.values

theorem SameContents.refl (c : Impl) : SameContents c c := ⟨fun _ => rfl, rfl, rfl, rfl⟩

/-- Caches of one capacity that represent the same table. -/
theorem sameContents_of_refines {c c' : Impl} {m : Entries} (h : Refines c m)
    (h' : Refines c' m) (hmax : c'.maxmem = c.maxmem) : SameContents c c' where
  stored k := (h'.lookup k).trans (h.lookup k).symm
  maxmem := hmax
  used := h'.used.trans h.used.symm
  order := h'.order.trans h.order.symm

theorem substr_error {s : Str} {pos n : Nat} {e : Fault} (h : substr s pos n = .error e) :
    e = .outOfRange := by
  unfold substr at h
  split at h
  · cases h
  · cases h
    rfl

theorem substrToEnd_error {s : Str} {pos : Nat} {e : Fault} (h : substrToEnd s pos = .error e) :
    e = .outOfRange := by
  unfold substrToEnd at h
  split at h
  · cases h
  · cases h
    rfl

/-- Slicing a URI can only fail by throwing. -/
theorem call_error {request : HTTPRequest} {e : Fault} (h : call request = .error e) :
    e = .outOfRange := by
  unfold call at h
  split at h
  · split at h
    · cases h
    · split at h <;> cases h
  · split at h
    · split at h
      · simp only [map_eq_error, putPair, bind_eq_error] at h
        rcases h with hkey | ⟨key, -, hval | ⟨valString, -, h⟩⟩
        · exact substr_error hkey
        · exact substrToEnd_error hval
        · cases h
      · split at h
        · exact substrToEnd_error (map_eq_error.mp h)
        · cases h
    · cases h

/-- What requests have stored can be sent back: no answer overruns the array of
`val_to_string`. -/
theorem answer_total {m : Entries} (hm : ∀ k b, m.lookup k = some b → FromRequest k b)
    (maxmem : UInt32) (op : Op) :
    ∃ response, answer op (lruStep (wrapping maxmem) m op).2 = .ok response := by
  cases op with
  | set key val =>
    simp only [lruStep]
    split <;> exact ⟨_, rfl⟩
  | get key =>
    cases hk : m.lookup key with
    | none => exact ⟨_, by simp only [lruStep, hk]; rfl⟩
    | some b =>
      have hret : (lruStep (wrapping maxmem) m (.get key)).2 = .value (.ofEntry (some b)) := by
        simp only [lruStep, hk]
      rw [hret]
      exact ⟨_, (hm key b hk).answer_get key⟩
  | del key => exact ⟨_, rfl⟩
  | spaceUsed => exact ⟨_, answer_spaceUsed _⟩

/-- In every state that the loop reaches, a request whose handler does not throw can be handled
again at once: the response is the same and the cache stays as it is. -/
theorem dispatch_retry {s : Server} (hs : s.Reachable) (request : HTTPRequest)
    (hthrow : s.dispatch request ≠ .error .outOfRange) :
    ∃ s₁ s₂ response, s.dispatch request = .ok (s₁, response) ∧
      s₁.dispatch request = .ok (s₂, response) ∧ SameContents s₁.cache s₂.cache := by
  obtain ⟨-, m, hm⟩ := hs.inv
  cases hcall : call request with
  | error e =>
    apply absurd _ hthrow
    rw [dispatch_eq, perform, hcall, call_error hcall]
    rfl
  | ok op =>
    cases op with
    | none =>
      have h := perform_none s.cache hcall
      exact ⟨_, _, _, dispatch_of_perform h, dispatch_of_perform h, SameContents.refl _⟩
    | some op =>
      obtain ⟨c', hc', -⟩ := hm.toRefines.step op
      obtain ⟨response, hanswer⟩ := answer_total hm.entries s.cache.maxmem op
      obtain ⟨c₁, c₂, m₁, ret, hc₁, hc₂, hr₁, hr₂, hm₁, hm₂⟩ := hm.toRefines.step_step op
      rw [hc₁] at hc'
      cases hc'
      have h₁ := perform_some hcall hc₁ hanswer
      have h₂ := perform_some hcall hc₂ hanswer
      exact ⟨_, _, response, dispatch_of_perform h₁, dispatch_of_perform h₂,
        sameContents_of_refines hr₁ hr₂ (hm₂.trans hm₁.symm)⟩

/-- A PUT that evicts an entry when it is handled first. -/
theorem dispatch_retry_put : ∃ s replies s₁ s₂ response,
    (Server.new 4).loop [str "PUT\n/key/x/yyy\nHTTP v1.1\n \n \n"] = .ok (s, replies) ∧
      s.cache.cacheMap.lookup (str "x") = some (stringToVal (str "yyy")) ∧
      s.dispatch (Client.setRequest (str "a") (str "bb")) = .ok (s₁, response) ∧
      s₁.cache.cacheMap.lookup (str "x") = none ∧
      s₁.dispatch (Client.setRequest (str "a") (str "bb")) = .ok (s₂, response) ∧
      SameContents s₁.cache s₂.cache := by
  have hstate : ((Server.new 4).loop [str "PUT\n/key/x/yyy\nHTTP v1.1\n \n \n"]).map (fun r =>
      (r.1.cache.cacheMap.lookup (str "x"),
        (r.1.dispatch (Client.setRequest (str "a") (str "bb"))).map fun q =>
          q.1.cache.cacheMap.lookup (str "x"))) =
      .ok (some (stringToVal (str "yyy")), .ok none) := by decide
  obtain ⟨⟨s, replies⟩, hloop, hstate⟩ := map_eq_ok.mp hstate
  obtain ⟨hstored, hfirst⟩ := Prod.mk.inj hstate
  obtain ⟨⟨s', response'⟩, hdisp, hnone⟩ := map_eq_ok.mp hfirst
  have hthrow : s.dispatch (Client.setRequest (str "a") (str "bb")) ≠ .error .outOfRange := by
    rw [hdisp]
    exact nofun
  obtain ⟨s₁, s₂, response, h₁, h₂, hsame⟩ :=
    dispatch_retry ⟨4, _, replies, hloop⟩ (Client.setRequest (str "a") (str "bb")) hthrow
  cases hdisp.symm.trans h₁
  exact ⟨s, replies, _, s₂, _, hloop, hstored, h₁, hnone, h₂, hsame⟩

/-! ## DELETE -/

/-- What deleting `k` means: `k` is gone, every other entry and the order of the others are as
before, a GET of `k` is answered 404, and a GET of any other key as before. -/
structure Deleted (k : Str) (s s' : Server) : Prop where
  gone : s'.cache.cacheMap.lookup k = none
  others : ∀ k', k' ≠ k → s'.cache.cacheMap.lookup k' = s.cache.cacheMap.lookup k'
  order : s'.cache.evictor.keyList.values = s.cache.evictor.keyList.values.erase k
  getNamed : ∀ request, Names (str "GET") k request →
    ∃ s'' response, s'.dispatch request = .ok (s'', response) ∧ response.code = str "404"
  getOther : ∀ k' request, k' ≠ k → Names (str "GET") k' request →
    (s'.dispatch request).map Prod.snd = (s.dispatch request).map Prod.snd

/-- The response depends on the cache alone. -/
theorem dispatch_snd (s : Server) (request : HTTPRequest) :
    (s.dispatch request).map Prod.snd = (perform s.cache request).map Prod.snd := by
  rw [dispatch_eq]
  cases perform s.cache request <;> rfl

/-- In every state that the loop reaches, a DELETE deletes the key that it names exactly if the
key is not empty and the cache stores neither it nor what remains of it without its first
character: then there is nothing to delete. -/
theorem delete_iff {s : Server} (hs : s.Reachable) {k : Str} {request : HTTPRequest}
    (hreq : Names (str "DELETE") k request) :
    (∃ s' response, s.dispatch request = .ok (s', response) ∧ response.code = str "200" ∧
      Deleted k s s') ↔
      k ≠ [] ∧ s.cache.cacheMap.lookup k = none ∧ s.cache.cacheMap.lookup k.tail = none := by
  obtain ⟨-, m, hm⟩ := hs.inv
  have hcall := call_delete hreq
  constructor
  · rintro ⟨s', response, hdisp, -, hdel⟩
    have hne : k ≠ [] := by
      intro hk
      rw [if_pos hk] at hcall
      simp [dispatch_eq, perform, hcall] at hdisp
    rw [if_neg hne] at hcall
    have htail : k.tail ≠ k := by
      intro heq
      have hlen := congrArg List.length heq
      have hpos := List.length_pos_iff.mpr hne
      rw [List.length_tail] at hlen
      omega
    obtain ⟨c', hc', hr', -⟩ := hm.toRefines.del k.tail
    have hstep : s.cache.step (.del k.tail) = .ok (c', .code 0) := Impl.step_eq_ok.mpr (.del hc')
    have hdisp' := dispatch_of_perform (s := s) (perform_some hcall hstep rfl)
    rw [hdisp] at hdisp'
    cases hdisp'
    refine ⟨hne, ?_, ?_⟩
    · have hgone := hdel.gone
      rw [hr'.lookup, AList.lookup_erase_ne htail.symm] at hgone
      rw [hm.toRefines.lookup, hgone]
    · have hother := hdel.others k.tail htail
      rw [hr'.lookup, AList.lookup_erase] at hother
      exact hother.symm
  · rintro ⟨hne, hk, htail⟩
    rw [if_neg hne] at hcall
    have hdel : s.cache.del k.tail = .ok (s.cache, 0) := by simp [Impl.del, htail]
    have hstep : s.cache.step (.del k.tail) = .ok (s.cache, .code 0) :=
      Impl.step_eq_ok.mpr (.del hdel)
    refine ⟨_, _, dispatch_of_perform (perform_some hcall hstep rfl), rfl, hk, fun _ _ => rfl,
      ?_, ?_, ?_⟩
    · rw [List.erase_of_not_mem]
      rw [hm.toRefines.order, AList.mem_keys.symm, ← AList.lookup_eq_none, ← hm.toRefines.lookup]
      exact hk
    · intro get hget
      have hnone : s.cache.get k = .ok (s.cache, ⟨none, 0⟩) := by simp [Impl.get, hk]
      have hmiss : s.cache.step (.get k) = .ok (s.cache, .value ⟨none, 0⟩) :=
        Impl.step_eq_ok.mpr (.get hnone)
      exact ⟨_, _, dispatch_of_perform (perform_some (call_get hget) hmiss rfl), rfl⟩
    · intro k' get _ _
      rw [dispatch_snd, dispatch_snd]

/-- With another key stored there is nothing to delete. -/
theorem delete_iff_absent : ∃ s replies s' response,
    (Server.new 12).loop [str "PUT\n/key/x/y\nHTTP v1.1\n \n \n"] = .ok (s, replies) ∧
      s.cache.cacheMap.lookup (str "x") = some (stringToVal (str "y")) ∧
      s.dispatch (Client.delRequest (str "ab")) = .ok (s', response) ∧
      response.code = str "200" ∧ Deleted (str "ab") s s' := by
  have hstate : ((Server.new 12).loop [str "PUT\n/key/x/y\nHTTP v1.1\n \n \n"]).map (fun r =>
      (r.1.cache.cacheMap.lookup (str "x"), r.1.cache.cacheMap.lookup (str "ab"),
        r.1.cache.cacheMap.lookup (str "b"))) =
      .ok (some (stringToVal (str "y")), none, none) := by decide
  obtain ⟨⟨s, replies⟩, hloop, hstate⟩ := map_eq_ok.mp hstate
  simp only [Prod.mk.injEq] at hstate
  obtain ⟨hstored, hnone, htail⟩ := hstate
  have hreq : Names (str "DELETE") (str "ab") (Client.delRequest (str "ab")) := ⟨rfl, rfl⟩
  obtain ⟨s', response, hdisp, hcode, hdel⟩ :=
    (delete_iff ⟨12, _, replies, hloop⟩ hreq).mpr ⟨by decide, hnone, htail⟩
  exact ⟨s, replies, s', response, hloop, hstored, hdisp, hcode, hdel⟩

/-- With `ab` and `b` stored, a DELETE of `ab` is answered 200 and removes `b`; a DELETE of the
empty key throws. -/
theorem delete_other_key :
    (∃ s replies s' response,
      (Server.new 12).loop [str "PUT\n/key/ab/x\nHTTP v1.1\n \n \n",
        str "PUT\n/key/b/y\nHTTP v1.1\n \n \n"] = .ok (s, replies) ∧
      s.dispatch (Client.delRequest (str "ab")) = .ok (s', response) ∧
      response.code = str "200" ∧
      s'.cache.cacheMap.lookup (str "ab") = some (stringToVal (str "x")) ∧
      s.cache.cacheMap.lookup (str "b") = some (stringToVal (str "y")) ∧
      s'.cache.cacheMap.lookup (str "b") = none) ∧
    (Server.new 12).dispatch (Client.delRequest []) = .error .outOfRange ∧
    ¬ ∀ s k request, Server.Reachable s → Names (str "DELETE") k request →
      ∃ s' response, s.dispatch request = .ok (s', response) ∧ response.code = str "200" ∧
        Deleted k s s' := by
  have hempty : (Server.new 12).dispatch (Client.delRequest []) = .error .outOfRange := by
    rw [dispatch_eq, perform, call_delete ⟨rfl, rfl⟩]
    rfl
  refine ⟨?_, hempty, ?_⟩
  · have hrun : ((Server.new 12).loop [str "PUT\n/key/ab/x\nHTTP v1.1\n \n \n",
        str "PUT\n/key/b/y\nHTTP v1.1\n \n \n"] >>= fun r =>
          (r.1.dispatch (Client.delRequest (str "ab"))).map fun q =>
            (q.2.code, q.1.cache.cacheMap.lookup (str "ab"), r.1.cache.cacheMap.lookup (str "b"),
              q.1.cache.cacheMap.lookup (str "b"))) =
        .ok (str "200", some (stringToVal (str "x")), some (stringToVal (str "y")), none) := by
      decide
    obtain ⟨⟨s, replies⟩, hloop, hdisp⟩ := bind_eq_ok.mp hrun
    obtain ⟨⟨s', response⟩, hdel, hstored⟩ := map_eq_ok.mp hdisp
    simp only [Prod.mk.injEq] at hstored
    exact ⟨s, replies, s', response, hloop, hdel, hstored⟩
  · intro hall
    obtain ⟨s', response, hdisp, -⟩ :=
      hall (Server.new 12) [] (Client.delRequest []) ⟨12, [], [], rfl⟩ ⟨rfl, rfl⟩
    rw [hempty] at hdisp
    cases hdisp

end NetCache
