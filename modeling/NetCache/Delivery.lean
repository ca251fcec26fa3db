import NetCache.Network
import NetCache.Soundness

/-!
# What the network makes of a call

Outside the calls that the network carries as they are (`Network`), the client and the server
still agree on some call of the cache: a key with a slash is cut at the slash, and a `del` loses
the first character of its key. `delivered` is the call that arrives, and `network_delivers` says
that a client is a local cache on the calls delivered, up to the first count of used bytes that
does not come back (`CountsClean`).
-/

namespace NetCache

open Lib Lib.Recency Cache

/-- The key that `serv_PUT` cuts out of `/key/k/v`. -/
def keyPart (k v : Str) : Str := (k ++ 47 :: v).takeWhile (· != 47)

/-- The value that `serv_PUT` cuts out of `/key/k/v`. -/
def valPart (k v : Str) : Str := ((k ++ 47 :: v).dropWhile (· != 47)).tail

/-- The call that the server makes for a call of the client. -/
def delivered : Op → Op
  | .set k v => .set (keyPart k v.bytes) (stringToVal (valPart k v.bytes))
  | .get k => .get k
  | .del k => .del k.tail
  | .spaceUsed => .spaceUsed

/-- The calls whose request arrives whole, and whose response comes back whole where it carries a
value. -/
def Carried : Op → Prop
  | .set k v => (10 ∉ k ∧ 0 ∉ k) ∧ (10 ∉ v.bytes ∧ 0 ∉ v.bytes) ∧ Clean (valPart k v.bytes) ∧
      (Client.setRequest k v.bytes).toString.length < maxMessageSize
  | .get k => Clean k ∧ (Client.getRequest k).toString.length < maxMessageSize
  | .del k => k ≠ [] ∧ (10 ∉ k ∧ 0 ∉ k) ∧
      (Client.delRequest k).toString.length < maxMessageSize
  | .spaceUsed => True

instance : DecidablePred Carried
  | .set .. => inferInstanceAs (Decidable (_ ∧ _))
  | .get _ => inferInstanceAs (Decidable (_ ∧ _))
  | .del _ => inferInstanceAs (Decidable (_ ∧ _))
  | .spaceUsed => inferInstanceAs (Decidable True)

/-- The counts of used bytes among the answers are four clean bytes each. -/
def CountsClean (rets : List Ret) : Prop :=
  ∀ n, Ret.used n ∈ rets → Clean (Blob.ofIndex (UInt32.ofNat n)).bytes

theorem split_slash (k v : Str) :
    k ++ 47 :: v = keyPart k v ++ 47 :: valPart k v ∧ 47 ∉ keyPart k v := by
  have hmem : 47 ∉ keyPart k v := by
    intro h
    have := List.mem_takeWhile_imp h
    simp at this
  refine ⟨?_, hmem⟩
  have hne : (k ++ 47 :: v).dropWhile (· != 47) ≠ [] := by
    simp [List.dropWhile_eq_nil_iff]
  have hhead := List.head_dropWhile_not (· != 47) hne
  have hcons : (k ++ 47 :: v).dropWhile (· != 47) = 47 :: valPart k v := by
    rw [← List.cons_head_tail hne]
    simp only [bne_eq_false_iff_eq] at hhead
    rw [hhead]
    rfl
  rw [← hcons, keyPart, List.takeWhile_append_dropWhile]

/-- A client `del` is one `del` of the server's cache, on the key without its first character. -/
theorem del_exchange {s : Server} {m : Entries} (hm : Refines s.cache m) {k : Str} (hne : k ≠ [])
    (hk : 10 ∉ k ∧ 0 ∉ k) (hlen : (Client.delRequest k).toString.length < maxMessageSize) :
    ∃ cache reply, s.cache.step (.del k.tail) = .ok (cache, .code 0) ∧
      s.iteration (Client.delRequest k).toString = .ok ({ s with cache }, reply) ∧
      Client.del s k = .ok ({ s with cache }, 0) := by
  obtain ⟨cache, hdel, -⟩ := hm.del k.tail
  have hstep : s.cache.step (.del k.tail) = .ok (cache, .code 0) := Impl.step_eq_ok.mpr (.del hdel)
  have hcall : call (Client.delRequest k) = .ok (some (.del k.tail)) := by
    rw [call_delete (k := k) ⟨rfl, rfl⟩, if_neg hne]
  obtain ⟨hiter, hex⟩ := exchange_ok
    (encodable_request (by decide) (isLine_key hk.1 hk.2)) hlen (dispatch_of_call hcall hstep rfl)
    (encodable_response (by decide) (by decide)) (by decide)
  refine ⟨cache, _, hstep, hiter, ?_⟩
  simp [Client.del, Client.delRequest, hex]

/-- A client `space_used` returns the count if the four bytes of it are clean. -/
theorem spaceUsed_of_clean {s : Server} (hclean : Clean (Blob.ofIndex s.cache.spaceUsed).bytes) :
    Client.spaceUsed s = .ok (s, s.cache.spaceUsed) := by
  have hkey : Clean (str "memused") := by decide
  have htext : countText s.cache.spaceUsed =
      JSON.pairText (str "memused") (Blob.ofIndex s.cache.spaceUsed).bytes := by
    rw [countText, cString_of_zero_notMem hclean.isWord.nul]
  have hresp : (countResponse s.cache.spaceUsed).Encodable :=
    encodable_response (by decide) (htext ▸ isLine_pairText hkey.plain hclean.plain)
  have hreceived := receiveResponse_toString hresp (length_countResponse _)
  obtain ⟨j, hparse, hfind⟩ := JSON.find_parse_pairText hkey.isWord hclean.isWord
  rw [← htext] at hparse
  have hbody : JSON.new.parseString (countResponse s.cache.spaceUsed).body = .ok j := hparse
  simp only [Client.spaceUsed, Client.spaceUsedJSON, Client.exchange, iteration_spaceUsed, ok_bind,
    hreceived, hbody, hfind, stringToVal_bytes, Blob.toIndex_ofIndex]

theorem countsClean_cons {ret : Ret} {rets : List Ret} :
    CountsClean (ret :: rets) ↔ CountsClean [ret] ∧ CountsClean rets := by
  simp only [CountsClean, List.mem_cons, List.not_mem_nil, or_false]
  constructor
  · intro h
    exact ⟨fun n hn => h n (.inl hn), fun n hn => h n (.inr hn)⟩
  · rintro ⟨hret, hrets⟩ n (hn | hn)
    · exact hret n hn
    · exact hrets n hn

theorem countsClean_used (n : UInt32) :
    CountsClean [.used n.toNat] ↔ Clean (Blob.ofIndex n).bytes := by
  simp [CountsClean]

/-- What is not a count is no obstacle. -/
theorem countsClean_of_ne {ret : Ret} (h : ∀ n, ret ≠ .used n) : CountsClean [ret] := by
  intro n hn
  exact absurd (List.mem_singleton.mp hn).symm (h n)

/-- What a carried call stores was clean, and its request short. -/
theorem sendable_of_carried {op : Op} (hop : Carried op) {k : Str} {b : Blob}
    (h : delivered op = .set k b) : Sendable k b := by
  cases op with
  | set k' v =>
    cases h
    obtain ⟨-, -, hclean, hlen⟩ := hop
    have hsplit := congrArg List.length (split_slash k' v.bytes).1
    rw [length_setRequest] at hlen
    rw [List.length_append, List.length_append, List.length_cons, List.length_cons] at hsplit
    have hbytes : (stringToVal (valPart k' v.bytes)).bytes = valPart k' v.bytes :=
      bytes_stringToVal (by rw [maxMessageSize] at hlen; omega)
    refine ⟨by rwa [hbytes], ?_⟩
    rw [length_setRequest, hbytes]
    omega
  | get k' => cases h
  | del k' => cases h
  | spaceUsed => cases h

/-- A call that is carried. The loop answers its message with one call of the cache, the one
delivered. The client returns what this call returns, and does so exactly if this is no count, or
a clean one. -/
structure Delivers (s : Server) (op : Op) (cache : Impl) (ret : Ret) (msg reply : Str) : Prop where
  made : s.cache.step (delivered op) = .ok (cache, ret)
  message : Client.message op = .ok msg
  iteration : s.iteration msg = .ok ({ s with cache }, reply)
  returns : ∀ r, Client.step s op = .ok r ↔ CountsClean [ret] ∧ r = ({ s with cache }, ret)

/-- The last part of it, where no count is returned. -/
theorem returns_of_step {s s' : Server} {op : Op} {ret : Ret}
    (hstep : Client.step s op = .ok (s', ret)) (hret : ∀ n, ret ≠ .used n) (r : Server × Ret) :
    Client.step s op = .ok r ↔ CountsClean [ret] ∧ r = (s', ret) := by
  rw [hstep]
  constructor
  · intro h
    exact ⟨countsClean_of_ne hret, (Except.ok.inj h).symm⟩
  · rintro ⟨-, rfl⟩
    rfl

/-- A call that is carried, made over the network and, as delivered, locally on the same cache. -/
theorem step_delivers {s : Server} {m : Entries} (hm : Holds Sendable s.cache m) {op : Op}
    (hop : Carried op) : ∃ cache ret msg reply, Delivers s op cache ret msg reply ∧
      ∃ m', Holds Sendable cache m' := by
  obtain ⟨cache', hlocal, hm'⟩ := hm.step (delivered op) fun k b => sendable_of_carried hop
  cases op with
  | set k v =>
    obtain ⟨hk, hv, -, hlen⟩ := hop
    obtain ⟨hsplit, hslash⟩ := split_slash k v.bytes
    have hpair : putPair (str "/key/" ++ (k ++ 47 :: v.bytes)) =
        .ok (keyPart k v.bytes, valPart k v.bytes) := by
      have huri := length_uri_lt hlen
      rw [hsplit] at huri ⊢
      exact putPair_slash hslash huri
    obtain ⟨cache, rc, reply, hset, -, hmsg, hiter, -, hclient⟩ :=
      set_exchange hm.toRefines hk hv hlen hpair
    have hstep : s.cache.step (delivered (.set k v)) = .ok (cache, .code rc) :=
      Impl.step_eq_ok.mpr (.set hset)
    obtain rfl : cache = cache' := congrArg Prod.fst (Except.ok.inj (hstep.symm.trans hlocal))
    exact ⟨cache, .code rc, _, reply, ⟨hstep, hmsg, hiter,
      returns_of_step (by simp [Client.step, hclient]) (by simp)⟩, _, hm'⟩
  | get k =>
    obtain ⟨hk, hlen⟩ := hop
    obtain ⟨cache, r, reply, hget, hiter, -, hclient⟩ :=
      get_exchange hm.toRefines hk hlen fun b hb => (hm.entries k b hb).response
    have hstep : s.cache.step (.get k) = .ok (cache, .value r) := Impl.step_eq_ok.mpr (.get hget)
    obtain rfl : cache = cache' := congrArg Prod.fst (Except.ok.inj (hstep.symm.trans hlocal))
    exact ⟨cache, .value r, _, reply, ⟨hstep, rfl, hiter,
      returns_of_step (by simp [Client.step, hclient]) (by simp)⟩, _, hm'⟩
  | del k =>
    obtain ⟨hne, hk, hlen⟩ := hop
    obtain ⟨cache, reply, hstep, hiter, hclient⟩ := del_exchange hm.toRefines hne hk hlen
    obtain rfl : cache = cache' := congrArg Prod.fst (Except.ok.inj (hstep.symm.trans hlocal))
    exact ⟨cache, .code 0, _, reply, ⟨hstep, rfl, hiter,
      returns_of_step (by simp [Client.step, hclient]) (by simp)⟩, _, hm'⟩
  | spaceUsed =>
    refine ⟨s.cache, .used s.cache.spaceUsed.toNat, _, _,
      ⟨rfl, rfl, iteration_spaceUsed s, fun r => ?_⟩, m, hm⟩
    rw [countsClean_used]
    constructor
    · intro h
      simp only [Client.step, bind_eq_ok] at h
      obtain ⟨r', h, hret⟩ := h
      obtain ⟨rfl, hclean⟩ := spaceUsed_returns h
      exact ⟨hclean, (Except.ok.inj hret).symm⟩
    · rintro ⟨hclean, rfl⟩
      simp [Client.step, spaceUsed_of_clean hclean]

/-- Calls that are carried: the client returns from all of them exactly if the local counts are
clean, and then it has returned what the local cache returns. -/
theorem run_delivers {s : Server} {m : Entries} (hm : Holds Sendable s.cache m) {ops : List Op}
    (hops : ∀ op ∈ ops, Carried op) : ∃ cache answers,
      Machine.run Impl.step s.cache (ops.map delivered) = .ok (cache, answers) ∧
      (∃ m', Holds Sendable cache m') ∧ ∀ r, Machine.run Client.step s ops = .ok r ↔
        CountsClean answers ∧ r = ({ s with cache }, answers) := by
  induction ops generalizing s m with
  | nil =>
    refine ⟨s.cache, [], rfl, ⟨m, hm⟩, fun r => ?_⟩
    constructor
    · intro h
      exact ⟨fun n hn => (List.not_mem_nil hn).elim, (Except.ok.inj h).symm⟩
    · rintro ⟨-, rfl⟩
      rfl
  | cons op ops ih =>
    obtain ⟨c₁, ret, msg, reply, hcall, m₁, hm₁⟩ := step_delivers hm (hops op List.mem_cons_self)
    obtain ⟨cache, answers, hlocal, hholds, hreturns⟩ :=
      ih (s := { s with cache := c₁ }) hm₁ fun o ho => hops o (List.mem_cons_of_mem op ho)
    refine ⟨cache, ret :: answers,
      Machine.run_cons_ok.mpr ⟨c₁, ret, answers, hcall.made, hlocal, rfl⟩, hholds, ?_⟩
    rintro ⟨s', rets⟩
    rw [Machine.run_cons_ok, countsClean_cons]
    constructor
    · rintro ⟨s₁, ret₁, rets₁, hstep, hrun, rfl⟩
      obtain ⟨hclean, h₁⟩ := (hcall.returns _).mp hstep
      cases h₁
      obtain ⟨hcleans, h₂⟩ := (hreturns _).mp hrun
      cases h₂
      exact ⟨⟨hclean, hcleans⟩, rfl⟩
    · rintro ⟨⟨hclean, hcleans⟩, h⟩
      cases h
      exact ⟨_, ret, answers, (hcall.returns _).mpr ⟨hclean, rfl⟩,
        (hreturns _).mpr ⟨hcleans, rfl⟩, rfl⟩

end NetCache
