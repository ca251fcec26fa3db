import NetCache.Destructor
import NetCache.Lib.Lockstep
import NetCache.Pointers
import NetCache.Reference

/-!
# The server and what it allocates

`Server` has the stored bytes in its cache. In `serversockets.cpp` a GET follows the pointer that
the cache returns, and a PUT allocates its value with `string_to_val`, hands a pointer to it to
the cache, which makes a copy, and releases it. `main` sends from a pointer into a string that is
destroyed by then. `PtrServer` is the server with these pointers. On whatever `recv` hands over it
runs in lockstep with `Server` (`loop_lockstep`), so apart from that one pointer of `main` none to
what is not alive is ever followed or released, and between two messages nothing is alive but the
two allocations of each entry (`loop_memory`). What is sent instead of the replies, nobody can say.
-/

namespace NetCache

open Lib Lib.Recency Cache

/-- `string_to_val` (`HTTP_utilities.cc:12-18`), with the pointer that it returns and the size. -/
def stringToValPtr (heap : Heap Cell) (s : Str) : Heap Cell × Nat × UInt32 :=
  (heap.alloc (.value (stringToVal s).bytes), heap.next, (stringToVal s).size)

/-- `size` bytes behind a pointer. -/
def readBlob (heap : Heap Cell) (q : Nat) (size : UInt32) : Except MemoryFault Blob := do
  let bytes ← readValue heap q
  (Blob.read bytes size).mapError .call

theorem alloc_front (heap : Heap Cell) (x : Cell) :
    (heap.alloc x).live.entries.Perm (⟨heap.next, x⟩ :: heap.live.entries) := by
  rw [Heap.entries_alloc]

/-- What has just been allocated can be read. -/
theorem readValue_alloc (heap : Heap Cell) (bytes : List UInt8) :
    readValue (heap.alloc (.value bytes)) heap.next = .ok bytes := by
  rw [readValue, Heap.read_of_perm (alloc_front heap _)]

theorem readBlob_alloc (heap : Heap Cell) (b : Blob) :
    readBlob (heap.alloc (.value b.bytes)) heap.next b.size = .ok b := by
  rw [readBlob, readValue_alloc, ok_bind, Blob.read_self]
  rfl

/-- What has just been allocated can be released, and then the heap is as before. -/
theorem release_alloc (heap : Heap Cell) (x : Cell) :
    ∃ heap', release (heap.alloc x) heap.next = .ok heap' ∧
      heap'.live.entries.Perm heap.live.entries := by
  obtain ⟨heap', hrelease, hlive⟩ := Heap.release_of_perm (alloc_front heap x)
  exact ⟨heap', by rw [release, hrelease], hlive⟩

/-- The state of the server process, with pointers. -/
structure PtrServer where
  running : Bool
  shutRd : Bool
  cache : PtrImpl

namespace PtrServer

/-- The state in which the loop is entered. -/
def new (maxmem : UInt32) : PtrServer := ⟨true, false, .new maxmem⟩

/-- `serv_GET` (`serversockets.cpp:30-74`), where `add` follows the pointer that `get` returns. -/
def servGET (cache : PtrImpl) (request : HTTPRequest) :
    Except MemoryFault (PtrImpl × HTTPResponse) := do
  let response := HTTPResponse.new
  let results := JSON.new
  if request.uri = str "/memsize" then
    let results ← (results.add (str "memused") (Blob.ofIndex cache.usedmem)).mapError .call
    let resultString ← results.toString.mapError .call
    .ok (cache, { response with code := str "200", body := resultString })
  else
    let head ← (substr request.uri 0 5).mapError .call
    if head = str "/key/" then
      let key ← (substrToEnd request.uri 5).mapError .call
      let (cache, valGotten, gottenSize) ← cache.getPointer key
      match valGotten with
      | some q =>
          let val ← readBlob cache.heap q gottenSize
          let results ← (results.add key val).mapError .call
          let resultString ← results.toString.mapError .call
          .ok (cache, { response with code := str "200", body := resultString })
      | none =>
          .ok (cache, { response with
            code := str "404", body := str "Item not present in cache" })
    else .ok (cache, { response with code := str "502", body := str "bad gateway" })

/-- `serv_PUT` (`serversockets.cpp:76-101`). The cache copies what is behind `val` before it
removes anything, and then `val` is released, whatever `set` has returned. -/
def servPUT (cache : PtrImpl) (request : HTTPRequest) :
    Except MemoryFault (PtrImpl × HTTPResponse) := do
  let response := HTTPResponse.new
  let head ← (substr request.uri 0 5).mapError .call
  if head = str "/key/" then
    let sep : UInt32 := UInt32.ofNat (find request.uri 47 5)
    let key ← (substr request.uri 5 (sep - 5).toNat).mapError .call
    let valString ← (substrToEnd request.uri (sep + 1).toNat).mapError .call
    let (heap, val, setSize) := stringToValPtr cache.heap valString
    let blob ← readBlob heap val setSize
    let (cache, rc) ← PtrImpl.set { cache with heap } key blob
    let response := if rc < 0 then
        { response with code := str "500", body := str "Failed to set element" }
      else { response with code := str "200", body := str "Element successfully set" }
    let heap ← release cache.heap val
    .ok ({ cache with heap }, response)
  else .ok (cache, { response with code := str "400", body := str "Bad PUT request" })

/-- `serv_DEL` (`serversockets.cpp:104-121`). -/
def servDEL (cache : PtrImpl) (request : HTTPRequest) :
    Except MemoryFault (PtrImpl × HTTPResponse) := do
  let response := HTTPResponse.new
  let head ← (substr request.uri 0 5).mapError .call
  if head = str "/key/" then
    let key ← (substrToEnd request.uri 6).mapError .call
    let (cache, rc) ← cache.del key
    if rc = 0 then
      .ok (cache, { response with
        code := str "200", body := str "Element successfully deleted" })
    else .ok (cache, { response with code := str "500", body := str "Failed to delete" })
  else .ok (cache, { response with code := str "400", body := str "Bad DELETE request" })

/-- The dispatch on the verb (`serversockets.cpp:236-255`). -/
def dispatch (s : PtrServer) (request : HTTPRequest) :
    Except MemoryFault (PtrServer × HTTPResponse) := do
  if request.verb = str "GET" then
    let (cache, response) ← servGET s.cache request
    .ok ({ s with cache }, response)
  else if request.verb = str "PUT" then
    let (cache, response) ← servPUT s.cache request
    .ok ({ s with cache }, response)
  else if request.verb = str "DELETE" then
    let (cache, response) ← servDEL s.cache request
    .ok ({ s with cache }, response)
  else if request.verb = str "HEAD" then .ok (s, servHEAD request)
  else if request.verb = str "POST" then .ok ({ s with shutRd := true }, HTTPResponse.new)
  else .ok (s, HTTPResponse.new)

/-- The bytes that `send` finds behind a pointer: those that stand there or, where nothing is alive
any more, what `stale` makes of the memory and of the text that stood there. -/
def sent (stale : Heap Cell → Str → Str) (heap : Heap Cell) (p : Nat) (text : Str) : Str :=
  match heap.read p with
  | some (.value bytes) => bytes.take text.length
  | _ => stale heap text

/-- The body of the loop of `main` (`serversockets.cpp:219-260`). `string_response` points into the
string that `to_string()` returns, which is destroyed at the end of the declaration; `send` is
given the length of another one. -/
def iteration (stale : Heap Cell → Str → Str) (s : PtrServer) (msg : Str) :
    Except MemoryFault (PtrServer × Str) := do
  let request ← (receiveRequest msg).mapError .call
  let (s, response) ← s.dispatch request
  let stringResponse := s.cache.heap.next
  let heap := s.cache.heap.alloc (.value response.toString)
  let heap ← release heap stringResponse
  .ok ({ s with cache := { s.cache with heap } }, sent stale heap stringResponse response.toString)

/-- The loop of `main`, with what is sent, on what `recv` hands over. -/
def loop (stale : Heap Cell → Str → Str) (s : PtrServer) :
    List Str → Except MemoryFault (PtrServer × List Str)
  | [] => .ok (s, [])
  | msg :: msgs =>
      if s.running then do
        let (s, bytes) ← s.iteration stale msg
        let (s, sent) ← s.loop stale msgs
        .ok (s, bytes :: sent)
      else .ok (s, [])

end PtrServer

/-- A cache that represents some table, and the same cache with pointers. -/
def Mirrored (pending : List (Sigma fun _ : Nat => Cell)) (c : Impl) (p : PtrImpl) : Prop :=
  (∃ m, Refines c m) ∧ ∃ t, Mirrors pending p c t

namespace Mirrored

variable {pending : List (Sigma fun _ : Nat => Cell)} {c : Impl} {p : PtrImpl}

theorem usedmem (h : Mirrored pending c p) : p.usedmem = c.usedmem := by
  obtain ⟨-, t, hm⟩ := h
  exact hm.usedmem

theorem del (h : Mirrored pending c p) (key : Str) :
    Lockstep .call (Mirrored pending) (c.del key) (p.del key) := by
  obtain ⟨⟨m, hr⟩, t, hm⟩ := h
  obtain ⟨c', hc, hr', -⟩ := hr.del key
  obtain ⟨p', hp, hm'⟩ := hm.del hc
  rw [hc, hp]
  exact .ok 0 ⟨⟨_, hr'⟩, _, hm'⟩

theorem set (h : Mirrored pending c p) (key : Str) (val : Blob) :
    Lockstep .call (Mirrored pending) (c.set key val) (p.set key val) := by
  obtain ⟨⟨m, hr⟩, t, hm⟩ := h
  have hset : ∃ c' rc m', c.set key val = .ok (c', rc) ∧ Refines c' m' := by
    by_cases hval : val.size ≤ c.maxmem
    · obtain ⟨c', hc, hr', -⟩ := hr.set key hval
      exact ⟨c', 0, _, hc, hr'⟩
    · exact ⟨c, -1, m, Refines.set_refused key hval, hr⟩
  obtain ⟨c', rc, m', hc, hr'⟩ := hset
  obtain ⟨p', t', hp, hm', -⟩ := hm.set hr hc
  rw [hc, hp]
  exact .ok rc ⟨⟨m', hr'⟩, t', hm'⟩

/-- A `get` that finds nothing returns null, and one that finds an entry a pointer to its bytes. -/
theorem getPointer (h : Mirrored pending c p) (key : Str) :
    ∃ c' p', Mirrored pending c' p' ∧
      (c.get key = .ok (c', ⟨none, 0⟩) ∧ p.getPointer key = .ok (p', none, 0) ∨
        ∃ (b : Blob) (q : Nat), c.get key = .ok (c', ⟨some b.bytes, b.size⟩) ∧
          p.getPointer key = .ok (p', some q, b.size) ∧ readBlob p'.heap q b.size = .ok b) := by
  obtain ⟨⟨m, hr⟩, t, hm⟩ := h
  obtain ⟨c', hc, hr', -⟩ := hr.get key
  obtain ⟨p', hp, hm'⟩ := hm.getPointer hc
  refine ⟨c', p', ⟨⟨_, hr'⟩, t, hm'⟩, ?_⟩
  have hfound := hr.lookup key
  rw [hm.values, lookup_mapVal] at hfound
  cases ha : t.lookup key with
  | none =>
    rw [← hfound, ha] at hc hp
    exact .inl ⟨hc, hp⟩
  | some a =>
    rw [← hfound, ha] at hc hp
    refine .inr ⟨a.val, a.valCopy, hc, hp, ?_⟩
    rw [readBlob, hm'.readValue ha, ok_bind, Blob.read_self]
    rfl

/-- A new allocation that no entry owns. -/
theorem alloc (h : Mirrored [] c p) (x : Cell) :
    Mirrored [⟨p.heap.next, x⟩] c { p with heap := p.heap.alloc x } := by
  obtain ⟨hr, t, hm⟩ := h
  refine ⟨hr, t, hm.pointers, hm.values, ?_, hm.maxmem, hm.usedmem, hm.evictor⟩
  rw [Heap.entries_alloc]
  exact hm.alive.cons _

/-- Its release. -/
theorem release {q : Nat} {x : Cell} (h : Mirrored [⟨q, x⟩] c p) :
    ∃ heap, Cache.release p.heap q = .ok heap ∧ Mirrored [] c { p with heap } := by
  obtain ⟨hr, t, hm⟩ := h
  obtain ⟨heap, hheap, hlive⟩ := Heap.release_of_perm hm.alive
  refine ⟨heap, by rw [Cache.release, hheap], hr, t, hm.pointers, hm.values, hlive, hm.maxmem,
    hm.usedmem, hm.evictor⟩

end Mirrored

namespace PtrServer

variable {c : Impl} {p : PtrImpl}

theorem servGET_lockstep (h : Mirrored [] c p) (request : HTTPRequest) :
    Lockstep .call (Mirrored []) (NetCache.servGET c request) (servGET p request) := by
  unfold NetCache.servGET servGET
  by_cases hmem : request.uri = str "/memsize"
  · rw [if_pos hmem, if_pos hmem, Impl.spaceUsed, ← h.usedmem]
    exact .lift _ fun results => .lift _ fun resultString => .ok _ h
  · rw [if_neg hmem, if_neg hmem]
    refine .lift _ fun head => ?_
    by_cases hkey : head = str "/key/"
    · rw [if_pos hkey, if_pos hkey]
      refine .lift _ fun key => ?_
      obtain ⟨c', p', h', ⟨hc, hp⟩ | ⟨b, q, hc, hp, hq⟩⟩ := h.getPointer key
      · rw [hc, hp]
        exact .ok _ h'
      · rw [hc, hp]
        simp only [ok_bind, hq, Blob.read_self]
        exact .lift _ fun results => .lift _ fun resultString => .ok _ h'
    · rw [if_neg hkey, if_neg hkey]
      exact .ok _ h

theorem servPUT_lockstep (h : Mirrored [] c p) (request : HTTPRequest) :
    Lockstep .call (Mirrored []) (NetCache.servPUT c request) (servPUT p request) := by
  unfold NetCache.servPUT servPUT
  refine .lift _ fun head => ?_
  by_cases hkey : head = str "/key/"
  · rw [if_pos hkey, if_pos hkey]
    refine .lift _ fun key => .lift _ fun valString => ?_
    have hval := h.alloc (.value (stringToVal valString).bytes)
    simp only [stringToValPtr, readBlob_alloc, ok_bind]
    refine (hval.set key (stringToVal valString)).bind fun c' p' rc h' => ?_
    obtain ⟨heap, hheap, h''⟩ := h'.release
    simp only [hheap, ok_bind]
    by_cases hrc : rc < 0
    · rw [if_pos hrc, if_pos hrc]
      exact .ok _ h''
    · rw [if_neg hrc, if_neg hrc]
      exact .ok _ h''
  · rw [if_neg hkey, if_neg hkey]
    exact .ok _ h

theorem servDEL_lockstep (h : Mirrored [] c p) (request : HTTPRequest) :
    Lockstep .call (Mirrored []) (NetCache.servDEL c request) (servDEL p request) := by
  unfold NetCache.servDEL servDEL
  refine .lift _ fun head => ?_
  by_cases hkey : head = str "/key/"
  · rw [if_pos hkey, if_pos hkey]
    refine .lift _ fun key => (h.del key).bind fun c' p' rc h' => ?_
    by_cases hrc : rc = 0
    · simp only [if_pos hrc]
      exact .ok _ h'
    · simp only [if_neg hrc]
      exact .ok _ h'
  · rw [if_neg hkey, if_neg hkey]
    exact .ok _ h

/-- The same server without and with pointers. -/
structure Mirrors (s : Server) (q : PtrServer) : Prop where
  running : s.running = q.running
  shutRd : s.shutRd = q.shutRd
  cache : Mirrored [] s.cache q.cache

variable {s : Server} {q : PtrServer}

theorem dispatch_lockstep (h : Mirrors s q) (request : HTTPRequest) :
    Lockstep .call Mirrors (s.dispatch request) (q.dispatch request) := by
  have hcache : ∀ c p, Mirrored [] c p → Mirrors { s with cache := c } { q with cache := p } :=
    fun c p hcp => ⟨h.running, h.shutRd, hcp⟩
  unfold Server.dispatch dispatch
  by_cases hget : request.verb = str "GET"
  · rw [if_pos hget, if_pos hget]
    exact (servGET_lockstep h.cache request).bind fun c p r hcp => .ok r (hcache c p hcp)
  · rw [if_neg hget, if_neg hget]
    by_cases hput : request.verb = str "PUT"
    · rw [if_pos hput, if_pos hput]
      exact (servPUT_lockstep h.cache request).bind fun c p r hcp => .ok r (hcache c p hcp)
    · rw [if_neg hput, if_neg hput]
      by_cases hdel : request.verb = str "DELETE"
      · rw [if_pos hdel, if_pos hdel]
        exact (servDEL_lockstep h.cache request).bind fun c p r hcp => .ok r (hcache c p hcp)
      · rw [if_neg hdel, if_neg hdel]
        by_cases hhead : request.verb = str "HEAD"
        · rw [if_pos hhead, if_pos hhead]
          exact .ok _ h
        · rw [if_neg hhead, if_neg hhead]
          by_cases hpost : request.verb = str "POST"
          · rw [if_pos hpost, if_pos hpost]
            exact .ok _ ⟨h.running, rfl, h.cache⟩
          · rw [if_neg hpost, if_neg hpost]
            exact .ok _ h

/-- What stands behind a pointer that has been released is stale. -/
theorem sent_released {stale : Heap Cell → Str → Str} {heap heap' : Heap Cell} {p : Nat}
    (h : release heap p = .ok heap') (text : Str) :
    sent stale heap' p text = stale heap' text := by
  have hread : heap'.read p = none := by
    unfold release Heap.release at h
    by_cases hp : p ∈ heap.live
    · rw [dif_pos hp] at h
      cases h
      exact AList.lookup_erase _ _
    · rw [dif_neg hp] at h
      cases h
  rw [sent, hread]

/-- What is sent instead of `reply`. -/
def SentFor (stale : Heap Cell → Str → Str) (reply bytes : Str) : Prop :=
  ∃ heap, bytes = stale heap reply

variable {stale : Heap Cell → Str → Str}

theorem iteration_lockstep (h : Mirrors s q) (msg : Str) :
    LockstepBy .call Mirrors (SentFor stale) (s.iteration msg) (q.iteration stale msg) := by
  refine .lift _ fun request => (dispatch_lockstep h request).bindBy fun s' q' response h' => ?_
  obtain ⟨heap, hheap, hcache⟩ := (h'.cache.alloc (.value response.toString)).release
  simp only [hheap, ok_bind, sent_released hheap]
  exact .ok ⟨h'.running, h'.shutRd, hcache⟩ ⟨heap, rfl⟩

/-- The loop with pointers goes on and fails as the loop without. -/
theorem loop_lockstep (h : Mirrors s q) (msgs : List Str) :
    LockstepBy .call Mirrors (List.Forall₂ (SentFor stale)) (s.loop msgs) (q.loop stale msgs) := by
  induction msgs generalizing s q with
  | nil => exact .ok h .nil
  | cons msg msgs ih =>
    unfold Server.loop loop
    rw [← h.running]
    by_cases hrun : s.running = true
    · rw [if_pos hrun, if_pos hrun]
      refine (iteration_lockstep h msg).bind fun s' q' reply bytes h' hbytes => ?_
      exact (ih h').bind fun s'' q'' replies sent h'' hsent => .ok h'' (.cons hbytes hsent)
    · rw [if_neg hrun, if_neg hrun]
      exact .ok h .nil

theorem mirrors_new (maxmem : UInt32) : Mirrors (.new maxmem) (new maxmem) where
  running := rfl
  shutRd := rfl
  cache := ⟨⟨∅, Refines.new maxmem⟩, ∅, .new maxmem⟩

end PtrServer

/-! ## What is alive between two messages -/

/-- The bytes that an allocation has for a value. -/
def Cell.valueBytes : Cell → Nat
  | .value bytes => bytes.length
  | .pair _ _ => 0

/-- The bytes of all values that are alive. -/
def heapBytes (heap : Heap Cell) : Nat := (heap.live.entries.map fun x => Cell.valueBytes x.2).sum

theorem Cache.Mirrors.heapBytes_eq {p : PtrImpl} {c : Impl} {m : Entries} {t : Table Str Owned}
    (h : Cache.Mirrors [] p c t) (hr : Refines c m) : heapBytes p.heap = total m := by
  have hcells : ((cells t).map fun x => Cell.valueBytes x.2).sum =
      (t.entries.map fun e => e.2.val.size.toNat).sum := by
    unfold cells
    induction t.entries with
    | nil => rfl
    | cons e es ih =>
      rw [List.flatMap_cons, List.map_append, List.sum_append, ih, List.map_cons, List.sum_cons,
        ← e.2.val.length_eq]
      simp [Owned.cells, Cell.valueBytes]
  have hstored : (t.entries.map fun e => e.2.val.size.toNat) =
      c.cacheMap.entries.map fun e => e.2.size.toNat := by
    rw [h.values, entries_mapVal, List.map_map]
    rfl
  rw [heapBytes, (h.alive.map _).sum_eq, List.nil_append, hcells, hstored,
    (hr.stored.map _).sum_eq]
  rfl

/-- What is sent where memory keeps what was released. -/
theorem sent_eq_of_kept {stale : Heap Cell → Str → Str} (hkept : ∀ heap text, stale heap text = text)
    {replies sent : List Str} (h : List.Forall₂ (PtrServer.SentFor stale) replies sent) :
    sent = replies := by
  induction h with
  | nil => rfl
  | cons hbytes _ ih =>
    obtain ⟨heap, rfl⟩ := hbytes
    rw [hkept, ih]

/-- Whatever the capacity, whatever `recv` hands over and whatever is found in released memory: the
server with pointers fails as the server without, so apart from `string_response` it follows and
releases no pointer to what is not alive, and it sends something for each reply, the reply itself
where released memory keeps its text. After each message the allocations that are alive are two for
each entry, and below capacity `2 ^ 31` their values never have more bytes than the capacity. -/
theorem loop_memory (maxmem : UInt32) (stale : Heap Cell → Str → Str) (msgs : List Received) :
    (∃ e, (PtrServer.new maxmem).loop stale (msgs.map Received.bytes) = .error (.call e) ∧
      (Server.new maxmem).loop (msgs.map Received.bytes) = .error e) ∨
    ∃ q s replies sent,
      (PtrServer.new maxmem).loop stale (msgs.map Received.bytes) = .ok (q, sent) ∧
      (Server.new maxmem).loop (msgs.map Received.bytes) = .ok (s, replies) ∧
      List.Forall₂ (PtrServer.SentFor stale) replies sent ∧
      ((∀ heap text, stale heap text = text) → sent = replies) ∧
      q.cache.heap.live.entries.length = 2 * s.cache.cacheMap.entries.length ∧
      (maxmem.toNat < 2 ^ 31 → heapBytes q.cache.heap ≤ maxmem.toNat) := by
  have h : LockstepBy MemoryFault.call PtrServer.Mirrors (List.Forall₂ (PtrServer.SentFor stale))
      _ _ := PtrServer.loop_lockstep (PtrServer.mirrors_new maxmem) (msgs.map Received.bytes)
  cases hq : (PtrServer.new maxmem).loop stale (msgs.map Received.bytes) with
  | error z =>
    rw [hq] at h
    obtain ⟨e, hs, rfl⟩ := h.of_error
    exact .inl ⟨e, rfl, hs⟩
  | ok r =>
    obtain ⟨q, sent⟩ := r
    rw [hq] at h
    obtain ⟨s, replies, hs, ⟨-, -, ⟨m, hr⟩, t, hm⟩, hsent⟩ := h.of_ok
    refine .inr ⟨q, s, replies, sent, rfl, hs, hsent, fun hkept => sent_eq_of_kept hkept hsent,
      ?_, ?_⟩
    · rw [hm.live_length hr, hr.stored.length_eq]
    · intro hsmall
      obtain ⟨rets, hrun⟩ := cache_of_loop hs
      obtain ⟨hx, -, hmax⟩ := Exact.of_run hsmall hrun
      have hwithin := hx.within
      rwa [hmax, ← hm.heapBytes_eq hx.toRefines] at hwithin

end NetCache
