import NetCache.Exchange

/-!
# The networked cache is the local one

On keys and values that every codec on the way keeps apart, the client's calls return what the
same calls return on a local cache, over runs of any length.
-/

namespace NetCache

open Lib Lib.Recency Cache

/-- The calls that the network carries: `set` and `get` with a clean key that has no slash in it,
a clean value, and a request that leaves room for a NUL. -/
def Admissible : Op → Prop
  | .set key val => Clean key ∧ 47 ∉ key ∧ Clean val.bytes ∧
      (Client.setRequest key val.bytes).toString.length < maxMessageSize
  | .get key => Clean key ∧ 47 ∉ key ∧ (Client.getRequest key).toString.length < maxMessageSize
  | _ => False

instance : DecidablePred Admissible
  | .set .. => inferInstanceAs (Decidable (_ ∧ _))
  | .get _ => inferInstanceAs (Decidable (_ ∧ _))
  | .del _ => inferInstanceAs (Decidable False)
  | .spaceUsed => inferInstanceAs (Decidable False)

/-- What admissible calls store. -/
def Sendable (k : Str) (b : Blob) : Prop :=
  Clean b.bytes ∧ (Client.setRequest k b.bytes).toString.length < maxMessageSize

/-- What was set by a short request is got back in a short response. -/
theorem Sendable.response {k : Str} {b : Blob} (h : Sendable k b) :
    Clean b.bytes ∧ k.length + b.bytes.length + 23 < maxMessageSize := by
  have hlen := h.2
  rw [length_setRequest] at hlen
  exact ⟨h.1, by omega⟩

/-- An admissible call, made locally and over the network on the same cache. -/
theorem step_simulates {s : Server} {m : Entries} (hm : Holds Sendable s.cache m) {op : Op}
    (hop : Admissible op) :
    ∃ cache ret m' msg reply, s.cache.step op = .ok (cache, ret) ∧
      Client.step s op = .ok ({ s with cache }, ret) ∧ Holds Sendable cache m' ∧
      Client.message op = .ok msg ∧ s.iteration msg = .ok ({ s with cache }, reply) ∧
      reply.length < maxMessageSize := by
  obtain ⟨c', hc', hm'⟩ := hm.step op (by
    rintro k b rfl
    exact ⟨hop.2.2.1, hop.2.2.2⟩)
  cases op with
  | set k v =>
    obtain ⟨hk, hslash, hv, hlen⟩ := hop
    have hpair := putPair_slash hslash (length_uri_lt hlen)
    obtain ⟨cache, rc, reply, hset, -, hmsg, hiter, hreply, hclient⟩ :=
      set_exchange hm.toRefines hk.plain hv.plain hlen hpair
    rw [stringToVal_bytes] at hset
    have hstep : s.cache.step (.set k v) = .ok (cache, .code rc) := Impl.step_eq_ok.mpr (.set hset)
    obtain rfl : cache = c' := congrArg Prod.fst (Except.ok.inj (hstep.symm.trans hc'))
    exact ⟨cache, _, _, _, reply, hstep, by simp [Client.step, hclient], hm', hmsg, hiter, hreply⟩
  | get k =>
    obtain ⟨hk, -, hlen⟩ := hop
    obtain ⟨cache, r, reply, hget, hiter, hreply, hclient⟩ :=
      get_exchange hm.toRefines hk hlen fun b hb => (hm.entries k b hb).response
    have hstep : s.cache.step (.get k) = .ok (cache, .value r) := Impl.step_eq_ok.mpr (.get hget)
    obtain rfl : cache = c' := congrArg Prod.fst (Except.ok.inj (hstep.symm.trans hc'))
    exact ⟨cache, _, _, _, reply, hstep, by simp [Client.step, hclient], hm', rfl, hiter, hreply⟩
  | del k => exact hop.elim
  | spaceUsed => exact hop.elim

/-- The same for a list of calls, with the messages that the server's loop receives. -/
theorem run_simulates {s : Server} {m : Entries} (hrun : s.running = true)
    (hm : Holds Sendable s.cache m) {ops : List Op} (hops : ∀ op ∈ ops, Admissible op) :
    ∃ cache rets msgs replies, Machine.run Impl.step s.cache ops = .ok (cache, rets) ∧
      Machine.run Client.step s ops = .ok ({ s with cache }, rets) ∧
      List.Forall₂ (fun op msg => Client.message op = .ok msg) ops msgs ∧
      s.loop msgs = .ok ({ s with cache }, replies) ∧
      ∀ reply ∈ replies, reply.length < maxMessageSize := by
  induction ops generalizing s m with
  | nil => exact ⟨s.cache, [], [], [], rfl, rfl, .nil, rfl, fun _ h => nomatch h⟩
  | cons op ops ih =>
    obtain ⟨c₁, ret, m₁, msg, reply, hlocal, hclient, hm₁, hmsg, hiter, hreply⟩ :=
      step_simulates hm (hops op List.mem_cons_self)
    obtain ⟨c₂, rets, msgs, replies, hlocal', hclient', hmsgs, hloop, hreplies⟩ :=
      ih (s := { s with cache := c₁ }) hrun hm₁ fun o ho => hops o (List.mem_cons_of_mem op ho)
    refine ⟨c₂, ret :: rets, msg :: msgs, reply :: replies,
      Machine.run_cons_ok.mpr ⟨c₁, ret, rets, hlocal, hlocal', rfl⟩,
      Machine.run_cons_ok.mpr ⟨_, ret, rets, hclient, hclient', rfl⟩,
      .cons hmsg hmsgs, Server.loop_cons hrun hiter hloop, ?_⟩
    intro r hr
    rcases List.mem_cons.mp hr with rfl | hr
    · exact hreply
    · exact hreplies r hr

/-- For every capacity and every list of admissible calls, client and server return at every call
what the local cache returns, the server is left with the local cache itself, and the server's
loop, run on the messages that the calls send, gives only replies that leave room for a NUL. -/
theorem network_refines_local (maxmem : UInt32) (ops : List Op)
    (hops : ∀ op ∈ ops, Admissible op) :
    ∃ cache rets s msgs replies, Impl.run maxmem ops = .ok (cache, rets) ∧
      Client.run maxmem ops = .ok (s, rets) ∧ s.cache = cache ∧
      List.Forall₂ (fun op msg => Client.message op = .ok msg) ops msgs ∧
      (Server.new maxmem).loop msgs = .ok (s, replies) ∧
      ∀ reply ∈ replies, reply.length < maxMessageSize := by
  obtain ⟨cache, rets, msgs, replies, hlocal, hclient, hmsgs, hloop, hreplies⟩ :=
    run_simulates (s := Server.new maxmem) rfl (Holds.new Sendable maxmem) hops
  exact ⟨cache, rets, _, msgs, replies, hlocal, hclient, rfl, hmsgs, hloop, hreplies⟩

/-- With a capacity of 4, the second `set` evicts the first key; a value may hold a slash. -/
theorem network_refines_local_four :
    let ops : List Op := [.set (str "a") (stringToVal (str "x/y")),
      .set (str "b") (stringToVal (str "zz")), .get (str "a"), .get (str "b")]
    ∃ cache rets s msgs replies, Impl.run 4 ops = .ok (cache, rets) ∧
      Client.run 4 ops = .ok (s, rets) ∧ s.cache = cache ∧
      List.Forall₂ (fun op msg => Client.message op = .ok msg) ops msgs ∧
      (Server.new 4).loop msgs = .ok (s, replies) ∧
      ∀ reply ∈ replies, reply.length < maxMessageSize :=
  network_refines_local 4 _ (by decide)

end NetCache
