import NetCache.CacheRefinement
import NetCache.JSONCodec
import NetCache.Server

/-!
# What a request does to the cache

Every request makes at most one call of the cache interface: `call` reads it off the verb and the
URI, `answer` is the response to what the call returns, and `dispatch_eq` says that the handlers
do nothing else. So what holds of one call of the cache holds of a request, and what holds of the
calls that requests can make holds of every cache that the server's loop reaches.
-/

namespace NetCache

open Lib Lib.Recency Cache

/-- Key and value string of a PUT with the prefix `/key/`, as `serv_PUT` slices them. -/
def putPair (uri : Str) : Except Fault (Str × Str) := do
  let sep : UInt32 := UInt32.ofNat (find uri 47 5)
  let key ← substr uri 5 (sep - 5).toNat
  let valString ← substrToEnd uri (sep + 1).toNat
  .ok (key, valString)

/-- The call of the cache interface that a request leads to. -/
def call (request : HTTPRequest) : Except Fault (Option Op) :=
  if request.verb = str "GET" then
    if request.uri = str "/memsize" then .ok (some .spaceUsed)
    else if request.uri.take 5 = str "/key/" then .ok (some (.get (request.uri.drop 5)))
    else .ok none
  else if request.uri.take 5 = str "/key/" then
    if request.verb = str "PUT" then
      (putPair request.uri).map fun kv => some (.set kv.1 (stringToVal kv.2))
    else if request.verb = str "DELETE" then
      (substrToEnd request.uri 6).map fun key => some (.del key)
    else .ok none
  else .ok none

/-- The response to what a call returns. A call and the answer of another kind of call do not
meet. -/
def answer : Op → Ret → Except Fault HTTPResponse
  | .spaceUsed, .used n => do
      let results ← JSON.new.add (str "memused") (Blob.ofIndex (UInt32.ofNat n))
      let body ← results.toString
      .ok { HTTPResponse.new with code := str "200", body }
  | .get key, .value ⟨some val, size⟩ => do
      let val ← Blob.read val size
      let results ← JSON.new.add key val
      let body ← results.toString
      .ok { HTTPResponse.new with code := str "200", body }
  | .get _, .value ⟨none, _⟩ =>
      .ok { HTTPResponse.new with code := str "404", body := str "Item not present in cache" }
  | .set _ _, .code rc =>
      .ok (if rc < 0 then
        { HTTPResponse.new with code := str "500", body := str "Failed to set element" }
      else { HTTPResponse.new with code := str "200", body := str "Element successfully set" })
  | .del _, .code rc =>
      .ok (if rc = 0 then
        { HTTPResponse.new with code := str "200", body := str "Element successfully deleted" }
      else { HTTPResponse.new with code := str "500", body := str "Failed to delete" })
  | _, _ => .ok HTTPResponse.new

theorem answer_hit (key : Str) {val : Blob} (h : val.size.toNat + 1 ≤ 1024) :
    answer (.get key) (.value (.ofEntry (some val))) =
      .ok { HTTPResponse.new with
        code := str "200", body := JSON.pairText key (cString val.bytes) } := by
  obtain ⟨results, hadd, hbody⟩ := bind_eq_ok.mp (JSON.toString_add_new key h)
  simp [GetResult.ofEntry, answer, hadd, hbody]

theorem answer_spaceUsed (n : UInt32) :
    answer .spaceUsed (.used n.toNat) =
      .ok { HTTPResponse.new with
        code := str "200",
        body := JSON.pairText (str "memused") (cString (Blob.ofIndex n).bytes) } := by
  have hsize : (Blob.ofIndex n).size.toNat + 1 ≤ 1024 := by
    show (4 : UInt32).toNat + 1 ≤ 1024
    decide
  obtain ⟨results, hadd, hbody⟩ := bind_eq_ok.mp (JSON.toString_add_new (str "memused") hsize)
  simp [answer, hadd, hbody]

/-- The response to a request that makes no call. -/
def plainAnswer (request : HTTPRequest) : HTTPResponse :=
  if request.verb = str "GET" then
    { HTTPResponse.new with code := str "502", body := str "bad gateway" }
  else if request.verb = str "PUT" then
    { HTTPResponse.new with code := str "400", body := str "Bad PUT request" }
  else if request.verb = str "DELETE" then
    { HTTPResponse.new with code := str "400", body := str "Bad DELETE request" }
  else if request.verb = str "HEAD" then servHEAD request
  else HTTPResponse.new

/-- A request as a call of the cache and an answer to what it returns. -/
def perform (cache : Impl) (request : HTTPRequest) : Except Fault (Impl × HTTPResponse) := do
  let op ← call request
  match op with
  | some op =>
      let (cache, ret) ← cache.step op
      let response ← answer op ret
      .ok (cache, response)
  | none => .ok (cache, plainAnswer request)

@[simp] theorem substr_zero (s : Str) (n : Nat) : substr s 0 n = .ok (s.take n) := rfl

/-- What has the prefix `/key/` has at least five characters. -/
theorem substrToEnd_of_take {s : Str} (h : s.take 5 = str "/key/") :
    substrToEnd s 5 = .ok (s.drop 5) := by
  have hlen := congrArg List.length h
  have hkey : (str "/key/").length = 5 := rfl
  rw [List.length_take, hkey] at hlen
  rw [substrToEnd, if_pos (by omega)]

theorem servGET_eq (cache : Impl) {request : HTTPRequest} (hverb : request.verb = str "GET") :
    servGET cache request = perform cache request := by
  unfold servGET perform call
  rw [if_pos hverb]
  by_cases hmem : request.uri = str "/memsize"
  · rw [if_pos hmem, if_pos hmem]
    simp [Impl.step, answer]
  · rw [if_neg hmem, if_neg hmem]
    by_cases hkey : request.uri.take 5 = str "/key/"
    · simp only [substr_zero, ok_bind, hkey, if_true, substrToEnd_of_take hkey, Impl.step]
      cases hget : cache.get (request.uri.drop 5) with
      | error e => rfl
      | ok r =>
        obtain ⟨cache', ⟨val, size⟩⟩ := r
        cases val <;> simp [answer]
    · simp [hkey, plainAnswer, hverb]

theorem put_ne_get : str "PUT" ≠ str "GET" := by decide

theorem delete_ne_get : str "DELETE" ≠ str "GET" := by decide

theorem delete_ne_put : str "DELETE" ≠ str "PUT" := by decide

theorem servPUT_eq (cache : Impl) {request : HTTPRequest} (hverb : request.verb = str "PUT") :
    servPUT cache request = perform cache request := by
  unfold servPUT perform call
  by_cases hkey : request.uri.take 5 = str "/key/"
  · simp only [substr_zero, ok_bind, hkey, hverb, put_ne_get, if_true, if_false, putPair]
    cases substr request.uri 5 (UInt32.ofNat (find request.uri 47 5) - 5).toNat with
    | error e => rfl
    | ok key =>
      cases substrToEnd request.uri (UInt32.ofNat (find request.uri 47 5) + 1).toNat with
      | error e => rfl
      | ok valString =>
        simp only [ok_bind, ok_map, Impl.step]
        cases cache.set key (stringToVal valString) with
        | error e => rfl
        | ok r =>
          by_cases hrc : r.2 < 0 <;> simp [answer, hrc]
  · simp [hkey, plainAnswer, hverb, put_ne_get]

theorem servDEL_eq (cache : Impl) {request : HTTPRequest} (hverb : request.verb = str "DELETE") :
    servDEL cache request = perform cache request := by
  unfold servDEL perform call
  by_cases hkey : request.uri.take 5 = str "/key/"
  · simp only [substr_zero, ok_bind, hkey, hverb, delete_ne_get, delete_ne_put, if_true, if_false]
    cases substrToEnd request.uri 6 with
    | error e => rfl
    | ok key =>
      simp only [ok_bind, ok_map, Impl.step]
      cases cache.del key with
      | error e => rfl
      | ok r =>
        by_cases hrc : r.2 = 0 <;> simp [answer, hrc]
  · simp [hkey, plainAnswer, hverb, delete_ne_get, delete_ne_put]

/-- A request of any other verb makes no call. -/
theorem call_other {request : HTTPRequest} (hget : request.verb ≠ str "GET")
    (hput : request.verb ≠ str "PUT") (hdel : request.verb ≠ str "DELETE") :
    call request = .ok none := by
  simp [call, hget, hput, hdel]

/-- The calls that requests can make: the count of used bytes, or a call on a key that was cut out
of the URI. -/
theorem call_ok {request : HTTPRequest} {op : Op} (h : call request = .ok (some op)) :
    (op = .spaceUsed ∧ request.verb = str "GET" ∧ request.uri = str "/memsize") ∨
      request.uri.take 5 = str "/key/" ∧
        (op = .get (request.uri.drop 5) ∨
          (∃ k v, op = .set k (stringToVal v) ∧ putPair request.uri = .ok (k, v)) ∨
          ∃ k, op = .del k) := by
  unfold call at h
  split at h
  · rename_i hget
    split at h
    · rename_i hmem
      cases h
      exact .inl ⟨rfl, hget, hmem⟩
    · split at h
      · rename_i hkey
        cases h
        exact .inr ⟨hkey, .inl rfl⟩
      · cases h
  · split at h
    · rename_i hkey
      refine .inr ⟨hkey, .inr ?_⟩
      split at h
      · obtain ⟨⟨k, v⟩, hput, hop⟩ := map_eq_ok.mp h
        cases hop
        exact .inl ⟨k, v, rfl, hput⟩
      · split at h
        · obtain ⟨k, -, hop⟩ := map_eq_ok.mp h
          cases hop
          exact .inr ⟨k, rfl⟩
        · cases h
    · cases h

theorem get_of_call {request : HTTPRequest} {k : Str}
    (h : call request = .ok (some (.get k))) : k = request.uri.drop 5 := by
  rcases call_ok h with ⟨hop, -, -⟩ | ⟨-, hop | ⟨k', v, hop, -⟩ | ⟨k', hop⟩⟩
  · cases hop
  · cases hop
    rfl
  · cases hop
  · cases hop

theorem set_of_call {request : HTTPRequest} {k : Str} {b : Blob}
    (h : call request = .ok (some (.set k b))) :
    request.uri.take 5 = str "/key/" ∧
      ∃ v, putPair request.uri = .ok (k, v) ∧ b = stringToVal v := by
  rcases call_ok h with ⟨hop, -, -⟩ | ⟨hkey, hop | ⟨k', v, hop, hput⟩ | ⟨k', hop⟩⟩
  · cases hop
  · cases hop
  · cases hop
    exact ⟨hkey, v, hput, rfl⟩
  · cases hop

theorem spaceUsed_of_call {request : HTTPRequest} (h : call request = .ok (some .spaceUsed)) :
    request.verb = str "GET" ∧ request.uri = str "/memsize" := by
  rcases call_ok h with ⟨-, hverb, huri⟩ | ⟨-, hop | ⟨k, v, hop, -⟩ | ⟨k, hop⟩⟩
  · exact ⟨hverb, huri⟩
  · cases hop
  · cases hop
  · cases hop

/-- A branch of the dispatch that hands the cache to a handler, for a verb other than POST. -/
theorem dispatch_branch (s : Server) {verb : Str} (hpost : verb ≠ str "POST")
    (x : Except Fault (Impl × HTTPResponse)) :
    (do
      let (cache, response) ← x
      .ok ({ s with cache }, response)) = x.map fun r =>
        ({ s with cache := r.1, shutRd := s.shutRd || verb == str "POST" }, r.2) := by
  rw [beq_eq_false_iff_ne.mpr hpost, Bool.or_false]
  cases x <;> rfl

/-- The handlers do nothing to the cache but the call of the request. -/
theorem dispatch_eq (s : Server) (request : HTTPRequest) :
    s.dispatch request = (perform s.cache request).map fun r =>
      ({ s with cache := r.1, shutRd := s.shutRd || request.verb == str "POST" }, r.2) := by
  unfold Server.dispatch
  by_cases hget : request.verb = str "GET"
  · rw [if_pos hget, servGET_eq s.cache hget]
    exact dispatch_branch s (by rw [hget]; decide) _
  · rw [if_neg hget]
    by_cases hput : request.verb = str "PUT"
    · rw [if_pos hput, servPUT_eq s.cache hput]
      exact dispatch_branch s (by rw [hput]; decide) _
    · rw [if_neg hput]
      by_cases hdel : request.verb = str "DELETE"
      · rw [if_pos hdel, servDEL_eq s.cache hdel]
        exact dispatch_branch s (by rw [hdel]; decide) _
      · -- no call: the response is the plain one, and a POST shuts the listening socket down
        rw [if_neg hdel]
        simp only [perform, call_other hget hput hdel, ok_bind, ok_map, plainAnswer, if_neg hget,
          if_neg hput, if_neg hdel]
        by_cases hhead : request.verb = str "HEAD"
        · have hpost : (request.verb == str "POST") = false := by rw [hhead]; decide
          rw [if_pos hhead, if_pos hhead, hpost, Bool.or_false]
        · rw [if_neg hhead, if_neg hhead]
          by_cases hpost : request.verb = str "POST"
          · simp [hpost, Server.servPOST]
          · rw [if_neg hpost, beq_eq_false_iff_ne.mpr hpost, Bool.or_false]

/-- Handling a request leaves `running` alone. -/
theorem dispatch_of_perform {s : Server} {request : HTTPRequest} {cache : Impl}
    {response : HTTPResponse} (h : perform s.cache request = .ok (cache, response)) :
    s.dispatch request = .ok
      ({ s with cache, shutRd := s.shutRd || request.verb == str "POST" }, response) := by
  rw [dispatch_eq, h, ok_map]

theorem perform_none (cache : Impl) {request : HTTPRequest} (hcall : call request = .ok none) :
    perform cache request = .ok (cache, plainAnswer request) := by
  simp [perform, hcall]

theorem perform_some {cache cache' : Impl} {request : HTTPRequest} {op : Op} {ret : Ret}
    {response : HTTPResponse} (hcall : call request = .ok (some op))
    (hstep : cache.step op = .ok (cache', ret)) (hanswer : answer op ret = .ok response) :
    perform cache request = .ok (cache', response) := by
  simp [perform, hcall, hstep, hanswer]

/-- A request that makes a call is not a POST, so only the cache changes. -/
theorem dispatch_of_call {s : Server} {request : HTTPRequest} {op : Op} {cache : Impl} {ret : Ret}
    {response : HTTPResponse} (hcall : call request = .ok (some op))
    (hstep : s.cache.step op = .ok (cache, ret)) (hanswer : answer op ret = .ok response) :
    s.dispatch request = .ok ({ s with cache }, response) := by
  have hpost : (request.verb == str "POST") = false := by
    rw [beq_eq_false_iff_ne]
    intro hverb
    have hother : call request = .ok none :=
      call_other (by rw [hverb]; decide) (by rw [hverb]; decide) (by rw [hverb]; decide)
    rw [hcall] at hother
    cases hother
  rw [dispatch_of_perform (perform_some hcall hstep hanswer), hpost, Bool.or_false]

/-- A request that is handled has made its call, if it makes one. -/
theorem perform_ok {cache cache' : Impl} {request : HTTPRequest} {response : HTTPResponse}
    (h : perform cache request = .ok (cache', response)) :
    (call request = .ok none ∧ cache' = cache) ∨
      ∃ op ret, call request = .ok (some op) ∧ cache.step op = .ok (cache', ret) ∧
        answer op ret = .ok response := by
  rw [perform, bind_eq_ok] at h
  obtain ⟨op, hcall, h⟩ := h
  cases op with
  | none =>
    cases h
    exact .inl ⟨hcall, rfl⟩
  | some op =>
    simp only [bind_eq_ok] at h
    obtain ⟨⟨cache₁, ret⟩, hstep, resp, hanswer, h⟩ := h
    cases h
    exact .inr ⟨op, ret, hcall, hstep, hanswer⟩

/-! ## Key and value of a PUT -/

theorem drop_key (t : Str) : (str "/key/" ++ t).drop 5 = t := rfl

theorem length_key (t : Str) : (str "/key/" ++ t).length = t.length + 5 := rfl

theorem take_key (t : Str) : (str "/key/" ++ t).take 5 = str "/key/" := List.take_left' rfl

/-- With a slash after the prefix, the 32-bit positions are those of the slash modulo `2 ^ 32`. -/
theorem putPair_append {k v : Str} (hk : 47 ∉ k) :
    putPair (str "/key/" ++ (k ++ 47 :: v)) = .ok (k.take (k.length % 2 ^ 32),
      (str "/key/" ++ (k ++ 47 :: v)).drop ((k.length + 6) % 2 ^ 32)) := by
  have hlen : (str "/key/" ++ (k ++ 47 :: v)).length = k.length + 6 + v.length := by
    rw [length_key, List.length_append, List.length_cons]
    omega
  have hfind : find (str "/key/" ++ (k ++ 47 :: v)) 47 5 = 5 + k.length := by
    rw [find, drop_key, if_pos (by simp), List.idxOf_append_of_notMem hk, List.idxOf_cons_self,
      Nat.add_zero]
  have hsub : (UInt32.ofNat (5 + k.length) - 5).toNat = k.length % 2 ^ 32 := by
    have h5 : (5 : UInt32).toNat = 5 := rfl
    rw [UInt32.toNat_sub, UInt32.toNat_ofNat', h5]
    omega
  have hadd : (UInt32.ofNat (5 + k.length) + 1).toNat = (k.length + 6) % 2 ^ 32 := by
    have h1 : (1 : UInt32).toNat = 1 := rfl
    rw [UInt32.toNat_add, UInt32.toNat_ofNat', h1]
    omega
  have hkey : substr (str "/key/" ++ (k ++ 47 :: v)) 5 (k.length % 2 ^ 32) =
      .ok (k.take (k.length % 2 ^ 32)) := by
    rw [substr, hlen, if_pos (by omega), drop_key,
      List.take_append_of_le_length (Nat.mod_le _ _)]
  have hval : substrToEnd (str "/key/" ++ (k ++ 47 :: v)) ((k.length + 6) % 2 ^ 32) =
      .ok ((str "/key/" ++ (k ++ 47 :: v)).drop ((k.length + 6) % 2 ^ 32)) := by
    have hmod := Nat.mod_le (k.length + 6) (2 ^ 32)
    rw [substrToEnd, hlen, if_pos (by omega)]
  simp only [putPair, hfind, hsub, hadd, hkey, hval, ok_bind]

theorem drop_afterKey (k v : Str) : (str "/key/" ++ (k ++ 47 :: v)).drop (k.length + 6) = v := by
  have hsplit : str "/key/" ++ (k ++ 47 :: v) = (str "/key/" ++ (k ++ [47])) ++ v := by simp
  have hprefix : (str "/key/" ++ (k ++ [47])).length = k.length + 6 := by
    rw [length_key, List.length_append]
    rfl
  rw [hsplit, List.drop_left' hprefix]

/-- Where nothing wraps, the key is what stands before the first slash. -/
theorem putPair_slash {k v : Str} (hk : 47 ∉ k)
    (hlen : (str "/key/" ++ (k ++ 47 :: v)).length < 2 ^ 32) :
    putPair (str "/key/" ++ (k ++ 47 :: v)) = .ok (k, v) := by
  rw [length_key, List.length_append, List.length_cons] at hlen
  rw [putPair_append hk, Nat.mod_eq_of_lt (by omega : k.length < 2 ^ 32), List.take_length,
    Nat.mod_eq_of_lt (by omega : k.length + 6 < 2 ^ 32), drop_afterKey]

/-- Without one, `npos` wraps: the key is the rest of the URI, and the value the whole URI. -/
theorem putPair_noSlash {t : Str} (ht : 47 ∉ t) :
    putPair (str "/key/" ++ t) = .ok (t.take (2 ^ 32 - 6), str "/key/" ++ t) := by
  have hfind : find (str "/key/" ++ t) 47 5 = npos := by
    rw [find, drop_key, if_neg ht]
  have hsub : (UInt32.ofNat npos - 5).toNat = 2 ^ 32 - 6 := by decide
  have hadd : (UInt32.ofNat npos + 1).toNat = 0 := by decide
  have hkey : substr (str "/key/" ++ t) 5 (2 ^ 32 - 6) = .ok (t.take (2 ^ 32 - 6)) := by
    rw [substr, length_key, if_pos (by omega), drop_key]
  simp only [putPair, hfind, hsub, hadd, hkey, ok_bind]
  rfl

/-- Any text after the prefix `/key/` gives a pair: a key without a slash and a value string,
both cut out of the URI. -/
theorem putPair_ok {uri : Str} (hkey : uri.take 5 = str "/key/") (hlen : uri.length < 2 ^ 32) :
    ∃ k v, putPair uri = .ok (k, v) ∧ 47 ∉ k ∧ k ⊆ uri ∧ v ⊆ uri ∧ v.length ≤ uri.length := by
  obtain ⟨t, rfl⟩ : ∃ t, uri = str "/key/" ++ t :=
    ⟨uri.drop 5, by rw [← hkey, List.take_append_drop]⟩
  by_cases ht : 47 ∈ t
  · obtain ⟨k, v, rfl, hk⟩ := List.eq_append_cons_of_mem ht
    refine ⟨k, v, putPair_slash hk hlen, hk, ?_, ?_, ?_⟩
    · intro x hx
      simp [hx]
    · intro x hx
      simp [hx]
    · rw [length_key, List.length_append, List.length_cons]
      omega
  · refine ⟨_, str "/key/" ++ t, putPair_noSlash ht, ?_, ?_, List.Subset.refl _, le_rfl⟩
    · intro h47
      exact ht (List.mem_of_mem_take h47)
    · intro x hx
      exact List.mem_append_right _ (List.mem_of_mem_take hx)

/-- A request with the given verb and the URI `/key/` followed by `k`. -/
structure Names (verb k : Str) (request : HTTPRequest) : Prop where
  verb : request.verb = verb
  uri : request.uri = str "/key/" ++ k

theorem call_get {k : Str} {request : HTTPRequest} (h : Names (str "GET") k request) :
    call request = .ok (some (.get k)) := by
  have hmem : str "/key/" ++ k ≠ str "/memsize" := by
    intro heq
    have := congrArg (List.take 5) heq
    rw [take_key] at this
    exact absurd this (by decide)
  unfold call
  rw [if_pos h.verb, h.uri, if_neg hmem, if_pos (take_key k), drop_key]

theorem call_put {t k v : Str} {request : HTTPRequest} (h : Names (str "PUT") t request)
    (hpair : putPair (str "/key/" ++ t) = .ok (k, v)) :
    call request = .ok (some (.set k (stringToVal v))) := by
  unfold call
  rw [h.verb, h.uri, if_neg put_ne_get, if_pos (take_key t), if_pos rfl, hpair, ok_map]

/-- `serv_DEL` cuts the URI at position 6: it drops the first character of the key, and throws
where the key is empty. -/
theorem call_delete {k : Str} {request : HTTPRequest} (h : Names (str "DELETE") k request) :
    call request = if k = [] then .error .outOfRange else .ok (some (.del k.tail)) := by
  unfold call
  rw [h.verb, h.uri, if_neg delete_ne_get, if_pos (take_key k), if_neg delete_ne_put, if_pos rfl]
  cases k with
  | nil => rfl
  | cons c cs =>
    rw [if_neg (List.cons_ne_nil c cs), substrToEnd, length_key, if_pos (by simp)]
    rfl

end NetCache
