import NetCache.Client
import NetCache.ServerMemory

/-!
# The client and what it allocates

The `get` of `client.cc` returns a pointer to a copy that it makes with `string_to_val`, where the
`get` of `cache.cpp` returns a pointer into the cache. Nobody releases the copy. So a pointer that
the client has returned stays good whatever is called later, unlike one into the cache
(`pointer_valid_iff`), and the process holds a copy of the value for each `get` that found one
(`client_memory`). The copy that `space_used` makes is read and released.
-/

namespace NetCache

open Lib Cache

/-- The client process and the server that it talks to. The pointers that `get` has returned, with
what was behind them, are there to speak of all of them. -/
structure PtrClient where
  server : Server
  heap : Heap Cell
  returned : List (Nat × Blob)

namespace PtrClient

/-- A new client of a new server. -/
def new (maxmem : UInt32) : PtrClient := ⟨.new maxmem, .empty, []⟩

/-- `get` (`client.cc:76-96`), with the bytes behind the pointer that it returns. -/
def get (c : PtrClient) (key : Str) : Except MemoryFault (PtrClient × GetResult) := do
  let (server, response) ← (Client.exchange c.server (Client.getRequest key)).mapError .call
  if response.code = str "200" then
    let result ← (JSON.new.parseString response.body).mapError .call
    match result.find key with
    | some value => do
        let (heap, val, valsize) := stringToValPtr c.heap value
        let blob ← readBlob heap val valsize
        .ok (⟨server, heap, c.returned ++ [(val, blob)]⟩, .ofEntry (some blob))
    | none => .error (.call .endIterator)
  else .ok ({ c with server }, .ofEntry none)

/-- `space_used` (`client.cc:143-160`). -/
def spaceUsed (c : PtrClient) : Except MemoryFault (PtrClient × UInt32) := do
  let (server, result) ← (Client.spaceUsedJSON c.server).mapError .call
  match result.find (str "memused") with
  | some value => do
      let (heap, val, _) := stringToValPtr c.heap value
      let bytes ← readValue heap val
      let n ← (Blob.toIndex bytes).mapError .call
      let heap ← release heap val
      .ok ({ c with server, heap }, n)
  | none => .error (.call .endIterator)

/-- One call. Neither `set` nor `del` allocates anything that outlives it. -/
def step (c : PtrClient) : Op → Except MemoryFault (PtrClient × Ret)
  | .set key val => do
      let (server, rc) ← (Client.set c.server key val).mapError .call
      .ok ({ c with server }, .code rc)
  | .get key => do
      let (c, r) ← c.get key
      .ok (c, .value r)
  | .del key => do
      let (server, rc) ← (Client.del c.server key).mapError .call
      .ok ({ c with server }, .code rc)
  | .spaceUsed => do
      let (c, n) ← c.spaceUsed
      .ok (c, .used n.toNat)

/-- The calls `ops`, one after the other, on a new server of capacity `maxmem`. -/
def run (maxmem : UInt32) (ops : List Op) : Except MemoryFault (PtrClient × List Ret) :=
  Machine.run step (new maxmem) ops

/-- A client with pointers of the server `s`: what is alive in its process is what was behind the
pointers that it has returned. -/
structure Mirrors (s : Server) (c : PtrClient) : Prop where
  server : c.server = s
  alive : c.heap.live.entries.Perm (c.returned.map fun x => ⟨x.1, .value x.2.bytes⟩)

variable {s : Server} {c c' : PtrClient}

theorem get_lockstep (h : Mirrors s c) (key : Str) :
    Lockstep .call Mirrors (Client.get s key) (c.get key) := by
  unfold Client.get get
  rw [h.server]
  refine .lift _ fun (server, response) => ?_
  by_cases hcode : response.code = str "200"
  · simp only [if_pos hcode]
    refine .lift _ fun result => ?_
    cases result.find key with
    | none => exact .error _
    | some value =>
      simp only [stringToValPtr, readBlob_alloc, ok_bind]
      refine .ok _ ⟨rfl, ?_⟩
      rw [Heap.entries_alloc, List.map_append]
      exact (h.alive.cons _).trans (List.perm_append_singleton _ _).symm
  · simp only [if_neg hcode]
    exact .ok _ ⟨rfl, h.alive⟩

theorem spaceUsed_lockstep (h : Mirrors s c) :
    Lockstep .call Mirrors (Client.spaceUsed s) c.spaceUsed := by
  unfold Client.spaceUsed spaceUsed
  rw [h.server]
  refine .lift _ fun (server, result) => ?_
  dsimp only
  cases result.find (str "memused") with
  | none => exact .error _
  | some value =>
    simp only [stringToValPtr, readValue_alloc, ok_bind]
    refine .lift _ fun n => ?_
    obtain ⟨heap, hrelease, hlive⟩ := release_alloc c.heap (.value (stringToVal value).bytes)
    rw [hrelease]
    exact .ok _ ⟨rfl, hlive.trans h.alive⟩

theorem step_lockstep (s : Server) (c : PtrClient) (op : Op) (h : Mirrors s c) :
    Lockstep .call Mirrors (Client.step s op) (c.step op) := by
  cases op with
  | set key val =>
    unfold Client.step step
    rw [h.server]
    exact .lift _ fun (server, rc) => .ok _ ⟨rfl, h.alive⟩
  | get key => exact (get_lockstep h key).bind fun s' c' r h' => .ok _ h'
  | del key =>
    unfold Client.step step
    rw [h.server]
    exact .lift _ fun (server, rc) => .ok _ ⟨rfl, h.alive⟩
  | spaceUsed => exact (spaceUsed_lockstep h).bind fun s' c' n h' => .ok _ h'

/-- Whether the call was a `get` that returned a pointer. -/
def found : Ret → Bool
  | .value r => r.val.isSome
  | _ => false

/-- What was returned with the pointers of the client. -/
def hits (c : PtrClient) : List Ret := c.returned.map fun x => .value (.ofEntry (some x.2))

theorem hits_get {key : Str} {r : GetResult} (h : c.get key = .ok (c', r)) :
    c'.hits = c.hits ++ [Ret.value r].filter found := by
  simp only [get, bind_eq_ok] at h
  obtain ⟨⟨server, response⟩, -, h⟩ := h
  split at h
  · obtain ⟨result, -, h⟩ := bind_eq_ok.mp h
    split at h
    · simp only [stringToValPtr, readBlob_alloc, ok_bind] at h
      cases h
      exact List.map_append
    · cases h
  · cases h
    exact (List.append_nil _).symm

theorem hits_step {op : Op} {ret : Ret} (h : c.step op = .ok (c', ret)) :
    c'.hits = c.hits ++ [ret].filter found := by
  cases op with
  | set key val =>
    simp only [step, bind_eq_ok] at h
    obtain ⟨⟨server, rc⟩, -, h⟩ := h
    cases h
    exact (List.append_nil _).symm
  | get key =>
    simp only [step, bind_eq_ok] at h
    obtain ⟨⟨c₁, r⟩, hget, h⟩ := h
    cases h
    exact hits_get hget
  | del key =>
    simp only [step, bind_eq_ok] at h
    obtain ⟨⟨server, rc⟩, -, h⟩ := h
    cases h
    exact (List.append_nil _).symm
  | spaceUsed =>
    simp only [step, spaceUsed, bind_eq_ok] at h
    obtain ⟨⟨c₁, n⟩, ⟨⟨server, result⟩, -, hused⟩, h⟩ := h
    cases h
    split at hused
    · simp only [bind_eq_ok] at hused
      obtain ⟨bytes, -, n, -, heap, -, hused⟩ := hused
      cases hused
      exact (List.append_nil _).symm
    · cases hused

/-- The pointers that are returned in a run are those of its hits. -/
theorem hits_run {ops : List Op} {rets : List Ret}
    (h : Machine.run step c ops = .ok (c', rets)) : c'.hits = c.hits ++ rets.filter found := by
  induction ops generalizing c rets with
  | nil =>
    cases h
    exact (List.append_nil _).symm
  | cons op ops ih =>
    obtain ⟨c₁, ret, rets', hstep, hrest, rfl⟩ := Machine.run_cons_ok.mp h
    rw [ih hrest, hits_step hstep, List.append_assoc, ← List.filter_append, List.singleton_append]

end PtrClient

/-- Whatever the capacity and the calls, the client with pointers returns and fails as the client
without. In its process one copy is alive for each `get` that has found a value, behind the pointer
that this `get` has returned and with the bytes that it has returned, and nothing else is. -/
theorem client_memory (maxmem : UInt32) (ops : List Op) :
    (∃ e, PtrClient.run maxmem ops = .error (.call e) ∧ Client.run maxmem ops = .error e) ∨
    ∃ c rets, PtrClient.run maxmem ops = .ok (c, rets) ∧
      Client.run maxmem ops = .ok (c.server, rets) ∧ c.hits = rets.filter PtrClient.found ∧
      c.heap.live.entries.Perm (c.returned.map fun x => ⟨x.1, .value x.2.bytes⟩) := by
  have hnew : PtrClient.Mirrors (.new maxmem) (.new maxmem) := ⟨rfl, .refl _⟩
  have h := Lockstep.run PtrClient.step_lockstep hnew ops
  cases hrun : PtrClient.run maxmem ops with
  | error z =>
    rw [PtrClient.run] at hrun
    rw [hrun] at h
    obtain ⟨e, hs, rfl⟩ := h.of_error
    exact .inl ⟨e, rfl, hs⟩
  | ok r =>
    obtain ⟨c, rets⟩ := r
    rw [PtrClient.run] at hrun
    rw [hrun] at h
    obtain ⟨s, hs, hm⟩ := h.of_ok
    rw [← hm.server] at hs
    exact .inr ⟨c, rets, rfl, hs, PtrClient.hits_run hrun, hm.alive⟩

end NetCache
