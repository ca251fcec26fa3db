import NetCache.Client
import NetCache.Conversion
import NetCache.Reachable

/-!
# The grammar of PUT

`serv_PUT` is to accept the URIs `/key/k/v`. Where no slash follows the key the position that
`find` returns wraps, and instead of a 400 the rest of the URI becomes the key and the whole URI
its value. `put_grammar_iff` says on which URIs, of any length, the handler follows the grammar.
-/

namespace NetCache

open Lib Lib.Recency Cache

/-- The URI is `/key/k/v`, with no slash in `k`. -/
structure IsPut (uri k v : Str) : Prop where
  slash : 47 ∉ k
  uri : uri = str "/key/" ++ k ++ str "/" ++ v

/-- `serv_PUT` on a URI of the grammar is one call of `set`, with the key and the value of the
URI; it is answered 200, or 500 where the cache refuses and stays as it is. Any other URI is
answered 400 and makes no call. -/
structure FollowsGrammar (cache : Impl) (request : HTTPRequest) : Prop where
  accepts : ∀ k v, IsPut request.uri k v → ∃ b : Blob, b.bytes = v ∧
    call request = .ok (some (.set k b)) ∧
    ∃ cache' rc response, cache.set k b = .ok (cache', rc) ∧
      servPUT cache request = .ok (cache', response) ∧
      (rc = 0 ∧ response.code = str "200" ∨
        rc ≠ 0 ∧ response.code = str "500" ∧ cache' = cache)
  rejects : (∀ k v, ¬ IsPut request.uri k v) → call request = .ok none ∧
    ∃ response, servPUT cache request = .ok (cache, response) ∧ response.code = str "400"

/-- The positions and sizes that `serv_PUT` computes with 32 bits serve their purpose: after the
prefix there is a slash, key and value have 32-bit sizes, and the value is what stands behind the
wrapped position. -/
def SlicesExactly (uri : Str) : Prop :=
  ∃ k v, IsPut uri k v ∧ k.length < 2 ^ 32 ∧ v.length < 2 ^ 32 ∧
    v <+: uri.drop ((k.length + 6) % 2 ^ 32)

theorem IsPut.uri_eq {uri k v : Str} (h : IsPut uri k v) :
    uri = str "/key/" ++ (k ++ 47 :: v) := by
  rw [h.uri, List.append_assoc, List.append_assoc]
  rfl

/-- Key and value of a URI are determined. -/
theorem IsPut.unique {uri k v k' v' : Str} (h : IsPut uri k v) (h' : IsPut uri k' v') :
    k = k' ∧ v = v' := by
  have heq : k ++ 47 :: v = k' ++ 47 :: v' :=
    List.append_cancel_left (h.uri_eq.symm.trans h'.uri_eq)
  have hcut : ∀ l t : Str, 47 ∉ l → (l ++ 47 :: t).takeWhile (· != 47) = l := by
    intro l t hl
    have hne : ∀ x ∈ l, (x != 47) = true := by
      intro x hx
      have : x ≠ 47 := fun h47 => hl (h47 ▸ hx)
      simpa using this
    rw [List.takeWhile_append_of_pos hne, List.takeWhile_cons_of_neg (by simp), List.append_nil]
  have hk : k = k' := by
    have := congrArg (List.takeWhile (· != 47)) heq
    rwa [hcut k v h.slash, hcut k' v' h'.slash] at this
  subst hk
  exact ⟨rfl, (List.cons.inj (List.append_cancel_left heq)).2⟩

/-- After the prefix, either a slash follows and the URI is in the grammar, or none does. -/
theorem isPut_or_noSlash {uri : Str} (h : uri.take 5 = str "/key/") :
    (∃ k v, IsPut uri k v) ∨ ∃ t, uri = str "/key/" ++ t ∧ 47 ∉ t := by
  have huri : uri = str "/key/" ++ uri.drop 5 := by rw [← h, List.take_append_drop]
  by_cases hslash : 47 ∈ uri.drop 5
  · obtain ⟨k, v, hsplit, hk⟩ := List.eq_append_cons_of_mem hslash
    refine .inl ⟨k, v, hk, ?_⟩
    rw [huri, hsplit, List.append_assoc, List.append_assoc]
    rfl
  · exact .inr ⟨_, huri, hslash⟩

theorem take_of_isPut {uri k v : Str} (h : IsPut uri k v) : uri.take 5 = str "/key/" := by
  rw [h.uri_eq]
  exact take_key _

/-- The call that a PUT of the grammar makes, with its wrapped positions. -/
theorem call_isPut {request : HTTPRequest} (hverb : request.verb = str "PUT") {k v : Str}
    (h : IsPut request.uri k v) :
    call request = .ok (some (.set (k.take (k.length % 2 ^ 32))
      (stringToVal (request.uri.drop ((k.length + 6) % 2 ^ 32))))) := by
  have hnames : Names (str "PUT") (k ++ 47 :: v) request := ⟨hverb, h.uri_eq⟩
  rw [h.uri_eq]
  exact call_put hnames (putPair_append h.slash)

/-- On the URIs that are sliced exactly, the call has the key and the value of the grammar. -/
theorem call_exact {request : HTTPRequest} (hverb : request.verb = str "PUT") {k v : Str}
    (h : IsPut request.uri k v) (hexact : SlicesExactly request.uri) :
    call request = .ok (some (.set k (stringToVal v))) := by
  obtain ⟨k', v', h', hk, hv, hprefix⟩ := hexact
  obtain ⟨rfl, rfl⟩ := h.unique h'
  have hlen : request.uri.length = k.length + 6 + v.length := by
    rw [h.uri_eq, length_key, List.length_append, List.length_cons]
    omega
  have hval : stringToVal (request.uri.drop ((k.length + 6) % 2 ^ 32)) = stringToVal v := by
    apply Blob.ext
    rw [bytes_stringToVal hv]
    show (request.uri.drop ((k.length + 6) % 2 ^ 32)).take
      (UInt32.ofNat (request.uri.drop ((k.length + 6) % 2 ^ 32)).length).toNat = v
    have hsize : (request.uri.length - (k.length + 6) % 2 ^ 32) % 2 ^ 32 = v.length := by omega
    rw [UInt32.toNat_ofNat', List.length_drop, hsize]
    exact (List.prefix_iff_eq_take.mp hprefix).symm
  rw [call_isPut hverb h, hval, Nat.mod_eq_of_lt hk, List.take_length]

/-- A PUT without a slash after the key is not rejected. -/
theorem not_follows_noSlash {cache : Impl} {request : HTTPRequest}
    (hverb : request.verb = str "PUT") {t : Str} (huri : request.uri = str "/key/" ++ t)
    (ht : 47 ∉ t) : ¬ FollowsGrammar cache request := by
  intro hfollows
  have hnone : ∀ k v, ¬ IsPut request.uri k v := by
    intro k v hput
    have heq := List.append_cancel_left (hput.uri_eq.symm.trans huri)
    exact ht (heq ▸ List.mem_append_right k List.mem_cons_self)
  have hcall := (hfollows.rejects hnone).1
  rw [call_put ⟨hverb, huri⟩ (putPair_noSlash ht)] at hcall
  cases hcall

/-- A PUT of the grammar that makes the call of its key and value is sliced exactly. -/
theorem slicesExactly_of_call {request : HTTPRequest} (hverb : request.verb = str "PUT")
    {k v : Str} (hput : IsPut request.uri k v) {b : Blob} (hb : b.bytes = v)
    (hcall : call request = .ok (some (.set k b))) : SlicesExactly request.uri := by
  rw [call_isPut hverb hput] at hcall
  simp only [Except.ok.injEq, Option.some.injEq, Op.set.injEq] at hcall
  obtain ⟨hk, hval⟩ := hcall
  refine ⟨k, v, hput, ?_, ?_, ?_⟩
  · have hlen := congrArg List.length hk
    rw [List.length_take] at hlen
    omega
  · rw [← hb]
    exact b.length_lt
  · rw [← hb, ← hval]
    exact List.take_prefix _ _

theorem length_lt_of_slicesExactly {uri k v : Str} (h : SlicesExactly uri) (hput : IsPut uri k v) :
    v.length < 2 ^ 32 := by
  obtain ⟨k', v', hput', -, hv, -⟩ := h
  obtain ⟨rfl, rfl⟩ := hput.unique hput'
  exact hv

/-- A call of `set` that a PUT makes is answered with its outcome. -/
theorem servPUT_of_call {c : Impl} {m : Entries} (hm : Refines c m) {request : HTTPRequest}
    (hverb : request.verb = str "PUT") {k : Str} {b : Blob}
    (hcall : call request = .ok (some (.set k b))) :
    ∃ cache' rc response, c.set k b = .ok (cache', rc) ∧
      servPUT c request = .ok (cache', response) ∧
      (rc = 0 ∧ response.code = str "200" ∨
        rc ≠ 0 ∧ response.code = str "500" ∧ cache' = c) := by
  obtain ⟨cache', rc, hset, heffect⟩ := hm.set_effect k b
  have hstep : c.step (.set k b) = .ok (cache', .code rc) := Impl.step_eq_ok.mpr (.set hset)
  refine ⟨cache', rc, _, hset,
    (servPUT_eq c hverb).trans (perform_some hcall hstep rfl), ?_⟩
  cases heffect with
  | refused hfit => exact .inr ⟨by decide, rfl, rfl⟩
  | stored => exact .inl ⟨rfl, rfl⟩

/-- In every state that the loop reaches, a PUT follows the grammar exactly if its URI does not
begin with `/key/` or is sliced exactly. -/
theorem put_grammar_iff {s : Server} (hs : s.Reachable) {request : HTTPRequest}
    (hverb : request.verb = str "PUT") :
    FollowsGrammar s.cache request ↔
      (request.uri.take 5 = str "/key/" → SlicesExactly request.uri) := by
  obtain ⟨-, m, hm⟩ := hs.inv
  constructor
  · intro hfollows hkey
    rcases isPut_or_noSlash hkey with ⟨k, v, hput⟩ | ⟨t, huri, ht⟩
    · obtain ⟨b, hb, hcall, -⟩ := hfollows.accepts k v hput
      exact slicesExactly_of_call hverb hput hb hcall
    · exact absurd hfollows (not_follows_noSlash hverb huri ht)
  · intro hexact
    constructor
    · intro k v hput
      have hslices := hexact (take_of_isPut hput)
      have hcall := call_exact hverb hput hslices
      exact ⟨_, bytes_stringToVal (length_lt_of_slicesExactly hslices hput), hcall,
        servPUT_of_call hm.toRefines hverb hcall⟩
    · intro hnone
      have hkey : ¬ request.uri.take 5 = str "/key/" := by
        intro hkey
        obtain ⟨k, v, hput, -⟩ := hexact hkey
        exact hnone k v hput
      have hcall : call request = .ok none := by
        unfold call
        rw [hverb, if_neg put_ne_get, if_neg hkey]
      refine ⟨hcall, _, (servPUT_eq s.cache hverb).trans (perform_none s.cache hcall), ?_⟩
      rw [plainAnswer, hverb, if_neg put_ne_get, if_pos rfl]

/-- A URI of fewer than `2 ^ 32` bytes with a slash after the key is sliced exactly. -/
theorem slicesExactly_of_short {uri k v : Str} (h : IsPut uri k v)
    (hlen : uri.length < 2 ^ 32) : SlicesExactly uri := by
  rw [h.uri_eq, length_key, List.length_append, List.length_cons] at hlen
  have hdrop : uri.drop ((k.length + 6) % 2 ^ 32) = v := by
    rw [Nat.mod_eq_of_lt (by omega : k.length + 6 < 2 ^ 32), h.uri_eq, drop_afterKey]
  refine ⟨k, v, h, by omega, by omega, ?_⟩
  exact hdrop ▸ List.prefix_rfl

/-- A PUT on a new cache. -/
theorem put_grammar_iff_value :
    FollowsGrammar (Server.new 12).cache (Client.setRequest (str "a") (str "b/c")) :=
  (put_grammar_iff ⟨12, [], [], rfl⟩ rfl).mpr fun _ =>
    slicesExactly_of_short (k := str "a") (v := str "b/c") ⟨by decide, rfl⟩ (by decide)

/-- A PUT of `/key/a`, with no value, is answered 200 and stores the whole URI under `a`. -/
theorem put_noSlash_stores :
    (∃ cache' response,
      servPUT (Impl.new 1024) { HTTPRequest.new with verb := str "PUT", uri := str "/key/a" } =
        .ok (cache', response) ∧ response.code = str "200" ∧
      cache'.cacheMap.lookup (str "a") = some (stringToVal (str "/key/a"))) ∧
    ¬ ∀ (s : Server) (request : HTTPRequest), s.Reachable → request.verb = str "PUT" →
      FollowsGrammar s.cache request := by
  refine ⟨?_, ?_⟩
  · have hrun : (servPUT (Impl.new 1024)
        { HTTPRequest.new with verb := str "PUT", uri := str "/key/a" }).map (fun r =>
          (r.2.code, r.1.cacheMap.lookup (str "a"))) =
        .ok (str "200", some (stringToVal (str "/key/a"))) := by decide
    obtain ⟨⟨cache', response⟩, hput, hstored⟩ := map_eq_ok.mp hrun
    exact ⟨cache', response, hput, Prod.mk.inj hstored⟩
  · intro hall
    have hfollows := hall (Server.new 1024)
      { HTTPRequest.new with verb := str "PUT", uri := str "/key/a" } ⟨1024, [], [], rfl⟩ rfl
    exact not_follows_noSlash (t := str "a") rfl rfl (by decide) hfollows

end NetCache
