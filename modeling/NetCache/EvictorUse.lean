import NetCache.Policies
import NetCache.Progress

/-!
# How the cache uses its evictor

The policies are implemented under a contract: a key is added when it is not tracked, and accessed
when it is. `Logged` is the cache with a log of the calls that it makes of its evictor. Without the
log it is `Impl` (`Logged.run_toImpl`). The calls that it makes keep to the contract, so what
`Policies` proves of the evict target holds of every eviction (`evictor_contract`).
-/

namespace NetCache.Cache

open Lib Lib.History Lib.Recency

/-- The cache, with the calls that it has made of its evictor, the latest one last. -/
structure Logged extends Impl where
  calls : List EvictorCall

namespace Logged

def new (maxmem : UInt32) : Logged := { Impl.new maxmem with calls := [] }

/-- A call of the evictor. -/
def callEvictor (c : Logged) (call : EvictorCall) : Except Fault Logged := do
  let evictor ← Policy.lru.call c.evictor call
  .ok { c with evictor, calls := c.calls ++ [call] }

/-- `del` (`cache.cpp:74-85`). -/
def del (c : Logged) (key : Str) : Except Fault (Logged × Int) :=
  match c.cacheMap.lookup key with
  | some beingRemoved => do
      let c ← c.callEvictor (.deletedItem key)
      .ok ({ c with
        usedmem := c.usedmem - beingRemoved.size, cacheMap := c.cacheMap.erase key }, 0)
  | none => .ok (c, 0)

/-- `evict` (`cache.cpp:92-95`). -/
def evict (c : Logged) : Except Fault Logged := do
  let toEvict ← LRUEvictor.getEvictTarget c.evictor
  let (c, _) ← c.del toEvict
  .ok c

/-- The part of `set` that removes an old value of the key (`cache.cpp:38-41`). -/
def dropOld (c : Logged) (key : Str) : Except Fault Logged :=
  match c.cacheMap.lookup key with
  | some _ => do
      let (c, _) ← c.del key
      .ok c
  | none => .ok c

/-- The eviction loop of `set` (`cache.cpp:44-46`). -/
def makeRoom (c : Logged) (size : UInt32) : Except Fault Logged :=
  Loop.run .outOfFuel (fun c => .ok (c.overfull size)) evict c.listed c

/-- `set` (`cache.cpp:28-54`). -/
def set (c : Logged) (key : Str) (val : Blob) : Except Fault (Logged × Int) :=
  if val.size ≤ c.maxmem then do
    let c ← c.dropOld key
    let c ← c.makeRoom val.size
    let c ← c.callEvictor (.addedItem key)
    .ok ({ c with
      usedmem := c.usedmem + val.size, cacheMap := c.cacheMap.insert key val }, 0)
  else .ok (c, -1)

/-- `get` (`cache.cpp:59-71`). -/
def get (c : Logged) (key : Str) : Except Fault (Logged × GetResult) :=
  match c.cacheMap.lookup key with
  | some retrieved => do
      let c ← c.callEvictor (.accessedItem key)
      .ok (c, ⟨some retrieved.bytes, retrieved.size⟩)
  | none => .ok (c, ⟨none, 0⟩)

/-- One call. -/
def step (c : Logged) : Op → Except Fault (Logged × Ret)
  | .set key val => do
      let (c, rc) ← c.set key val
      .ok (c, .code rc)
  | .get key => do
      let (c, r) ← c.get key
      .ok (c, .value r)
  | .del key => do
      let (c, rc) ← c.del key
      .ok (c, .code rc)
  | .spaceUsed => .ok (c, .used c.spaceUsed.toNat)

/-- The calls `ops`, one after the other, on a new cache of capacity `maxmem`. -/
def run (maxmem : UInt32) (ops : List Op) : Except Fault (Logged × List Ret) :=
  Machine.run step (new maxmem) ops

/-! ## Without the log -/

theorem callEvictor_eq_ok {c c' : Logged} {call : EvictorCall} :
    c.callEvictor call = .ok c' ↔ ∃ e, Policy.lru.call c.evictor call = .ok e ∧
      c' = { c with evictor := e, calls := c.calls ++ [call] } := by
  rw [callEvictor, bind_eq_ok]
  constructor
  · rintro ⟨e, he, h⟩
    exact ⟨e, he, (Except.ok.inj h).symm⟩
  · rintro ⟨e, he, rfl⟩
    exact ⟨e, he, rfl⟩

theorem del_toImpl (c : Logged) (key : Str) :
    (c.del key).map (Prod.map toImpl id) = c.toImpl.del key := by
  unfold del Impl.del callEvictor Policy.call
  cases c.cacheMap.lookup key with
  | none => rfl
  | some old => cases he : KeyQueue.deletedItem c.evictor key <;> simp [he]

theorem evict_toImpl (c : Logged) : c.evict.map toImpl = c.toImpl.evict := by
  unfold evict Impl.evict
  cases LRUEvictor.getEvictTarget c.evictor with
  | error e => rfl
  | ok key =>
    simp only [ok_bind, ← del_toImpl]
    cases c.del key <;> rfl

theorem dropOld_toImpl (c : Logged) (key : Str) :
    (c.dropOld key).map toImpl = c.toImpl.dropOld key := by
  unfold dropOld Impl.dropOld
  cases c.cacheMap.lookup key with
  | none => rfl
  | some old =>
    simp only [← del_toImpl]
    cases c.del key <;> rfl

theorem makeRoom_toImpl (c : Logged) (size : UInt32) :
    (c.makeRoom size).map toImpl = c.toImpl.makeRoom size := by
  refine Loop.run_map toImpl ?_ evict_toImpl c.listed c
  intro c
  rfl

theorem set_toImpl (c : Logged) (key : Str) (val : Blob) :
    (c.set key val).map (Prod.map toImpl id) = c.toImpl.set key val := by
  unfold set Impl.set
  by_cases hval : val.size ≤ c.maxmem
  · simp only [if_pos hval, ← dropOld_toImpl]
    cases c.dropOld key with
    | error e => rfl
    | ok c₁ =>
      simp only [ok_bind, ok_map, ← makeRoom_toImpl]
      cases c₁.makeRoom val.size <;> rfl
  · simp only [if_neg hval]
    rfl

theorem get_toImpl (c : Logged) (key : Str) :
    (c.get key).map (Prod.map toImpl id) = c.toImpl.get key := by
  unfold get Impl.get callEvictor Policy.call
  cases c.cacheMap.lookup key with
  | none => rfl
  | some old => cases he : LRUEvictor.accessedItem c.evictor key <;> simp [he]

theorem step_toImpl (c : Logged) (op : Op) :
    (c.step op).map (Prod.map toImpl id) = c.toImpl.step op := by
  cases op with
  | set key val =>
    simp only [step, Impl.step, ← set_toImpl]
    cases c.set key val <;> rfl
  | get key =>
    simp only [step, Impl.step, ← get_toImpl]
    cases c.get key <;> rfl
  | del key =>
    simp only [step, Impl.step, ← del_toImpl]
    cases c.del key <;> rfl
  | spaceUsed => rfl

/-- Without the log it is the cache. -/
theorem run_toImpl (maxmem : UInt32) (ops : List Op) :
    (run maxmem ops).map (Prod.map toImpl id) = Impl.run maxmem ops :=
  Machine.run_map toImpl step_toImpl (new maxmem) ops

/-! ## The contract -/

/-- The calls so far keep to the contract, and the evictor is what they lead to. -/
structure Contracted (c : Logged) : Prop where
  admitted : Admitted Policy.lru.admits c.calls
  evictor : Policy.lru.run c.calls = .ok c.evictor

namespace Contracted

variable {c c' : Logged}

theorem new (maxmem : UInt32) : (new maxmem).Contracted where
  admitted n hn := absurd hn (Nat.not_lt_zero n)
  evictor := rfl

theorem represents (h : c.Contracted) : Policy.Represents .lru c.calls c.evictor := by
  obtain ⟨e, he, hr⟩ := Policy.Represents.run .lru h.admitted
  cases h.evictor.symm.trans he
  exact hr

theorem callEvictor (h : c.Contracted) {call : EvictorCall}
    (hcall : Policy.lru.admits c.calls call) (hc : c.callEvictor call = .ok c') :
    c'.Contracted := by
  obtain ⟨e, he, rfl⟩ := callEvictor_eq_ok.mp hc
  exact ⟨admitted_snoc.mpr ⟨h.admitted, hcall⟩, (Policy.run_snoc h.evictor call).trans he⟩

theorem del (h : c.Contracted) {key : Str} {rc : Int} (hc : c.del key = .ok (c', rc)) :
    c'.Contracted := by
  unfold Logged.del at hc
  split at hc
  · obtain ⟨c₁, hc₁, hc⟩ := bind_eq_ok.mp hc
    have hadmits : Policy.lru.admits c.calls (.deletedItem key) := trivial
    have h₁ := h.callEvictor hadmits hc₁
    cases hc
    exact ⟨h₁.admitted, h₁.evictor⟩
  · cases hc
    exact h

theorem evict (h : c.Contracted) (hc : c.evict = .ok c') : c'.Contracted := by
  simp only [Logged.evict, bind_eq_ok] at hc
  obtain ⟨key, -, ⟨c₁, rc⟩, hdel, hc⟩ := hc
  cases hc
  exact h.del hdel

theorem dropOld (h : c.Contracted) {key : Str} (hc : c.dropOld key = .ok c') :
    c'.Contracted := by
  unfold Logged.dropOld at hc
  split at hc
  · obtain ⟨⟨c₁, rc⟩, hdel, hc⟩ := bind_eq_ok.mp hc
    cases hc
    exact h.del hdel
  · cases hc
    exact h

theorem makeRoom (h : c.Contracted) {size : UInt32} (hc : c.makeRoom size = .ok c') :
    c'.Contracted :=
  (Loop.run_ok hc).1.invariant Contracted (fun _ _ hs ht => hs.evict ht.2) h

/-- `set` adds a key that is not tracked: its old entry has been dropped. -/
theorem set (h : c.Contracted) {m : Entries} (hr : Refines c.toImpl m) {key : Str} {val : Blob}
    {rc : Int} (hc : c.set key val = .ok (c', rc)) : c'.Contracted := by
  unfold Logged.set at hc
  split at hc
  · rename_i hval
    simp only [bind_eq_ok] at hc
    obtain ⟨c₁, hc₁, c₂, hc₂, c₃, hc₃, hc⟩ := hc
    have hdrop : c.toImpl.dropOld key = .ok c₁.toImpl := by rw [← dropOld_toImpl, hc₁, ok_map]
    have hroom : c₁.toImpl.makeRoom val.size = .ok c₂.toImpl := by
      rw [← makeRoom_toImpl, hc₂, ok_map]
    have h₂ := (h.dropOld hc₁).makeRoom hc₂
    have huntracked : Policy.lru.admits c₂.calls (.addedItem key) := by
      rw [Policy.admits, ← h₂.represents.tracked, (hr.of_makeRoom hval hdrop hroom).order]
      exact fun hmem => AList.lookup_eq_none.mp (lookup_erase_self_shrink _ key m)
        (AList.mem_keys.mpr hmem)
    have h₃ := h₂.callEvictor huntracked hc₃
    cases hc
    exact ⟨h₃.admitted, h₃.evictor⟩
  · cases hc
    exact h

/-- `get` accesses a key that is tracked: it is stored. -/
theorem get (h : c.Contracted) {m : Entries} (hr : Refines c.toImpl m) {key : Str} {r : GetResult}
    (hc : c.get key = .ok (c', r)) : c'.Contracted := by
  unfold Logged.get at hc
  split at hc
  · rename_i val hval
    obtain ⟨c₁, hc₁, hc⟩ := bind_eq_ok.mp hc
    have htracked : Policy.lru.admits c.calls (.accessedItem key) := by
      rw [Policy.admits, ← h.represents.tracked, ← hr.agrees.stored, ← AList.lookup_isSome, hval]
      rfl
    cases hc
    exact h.callEvictor htracked hc₁
  · cases hc
    exact h

theorem step (h : c.Contracted) {m : Entries} (hr : Refines c.toImpl m) {op : Op} {ret : Ret}
    (hc : c.step op = .ok (c', ret)) : c'.Contracted := by
  cases op with
  | set key val =>
    obtain ⟨⟨c₁, rc⟩, hset, hc⟩ := bind_eq_ok.mp hc
    cases hc
    exact h.set hr hset
  | get key =>
    obtain ⟨⟨c₁, r⟩, hget, hc⟩ := bind_eq_ok.mp hc
    cases hc
    exact h.get hr hget
  | del key =>
    obtain ⟨⟨c₁, rc⟩, hdel, hc⟩ := bind_eq_ok.mp hc
    cases hc
    exact h.del hdel
  | spaceUsed =>
    cases hc
    exact h

/-- Every run keeps to the contract. -/
theorem run {maxmem : UInt32} {ops : List Op} {rets : List Ret}
    (hc : Logged.run maxmem ops = .ok (c, rets)) : c.Contracted := by
  let Inv : Logged → Prop := fun c => (∃ m, Refines c.toImpl m) ∧ c.Contracted
  have hstep : ∀ c₁ op c₂ ret, Inv c₁ → c₁.step op = .ok (c₂, ret) → Inv c₂ := by
    rintro c₁ op c₂ ret ⟨⟨m, hr⟩, h⟩ hs
    obtain ⟨c₂', hs', hr₂, -⟩ := hr.step op
    rw [← step_toImpl, hs] at hs'
    cases hs'
    exact ⟨⟨_, hr₂⟩, h.step hr hs⟩
  exact (Machine.run_invariant hstep ⟨⟨∅, Refines.new maxmem⟩, new maxmem⟩ hc).2

end Contracted

/-! ## Evictions -/

/-- Where an eviction loop evicts next: that of a `set` on the cache `c`, or that of the destructor
(`cache.cpp:19-21`). -/
inductive Evicting (c : Logged) : Logged → Prop
  | set {key : Str} {val : Blob} {c₁ t : Logged} (hval : val.size ≤ c.maxmem)
      (hdrop : c.dropOld key = .ok c₁)
      (hvisits : Loop.Visits (fun c => .ok (c.overfull val.size)) evict c₁ t)
      (hfull : t.overfull val.size = true) : Evicting c t
  | destroy {t : Logged} (hvisits : Loop.Visits (fun c => .ok c.inUse) evict c t)
      (hinUse : t.inUse = true) : Evicting c t

variable {c t : Logged}

/-- An eviction is one more call, of the evict target. -/
theorem evict_calls {t' : Logged} (hagrees : Agrees t.toImpl) {target : Str}
    (htarget : LRUEvictor.getEvictTarget t.evictor = .ok target)
    (hlisted : target ∈ t.evictor.keyList.values) (h : t.evict = .ok t') :
    t'.calls = t.calls ++ [.deletedItem target] := by
  obtain ⟨old, hold⟩ :=
    Option.isSome_iff_exists.mp (AList.lookup_isSome.mpr ((hagrees.stored target).mpr hlisted))
  simp only [evict, htarget, del, hold, callEvictor_eq_ok, ok_bind, bind_eq_ok] at h
  obtain ⟨⟨t₁, rc⟩, ⟨t₂, ⟨e, -, rfl⟩, h₁⟩, h⟩ := h
  cases h₁
  cases h
  rfl

/-- A loop of evictions whose test progresses: wherever it evicts, the calls so far keep to the
contract, and it evicts the tracked key of the greatest age. -/
theorem evicts_oldest {guard : Impl → Bool} (h : c.Contracted) {m : Entries}
    (hr : Refines c.toImpl m) (hloop : Progresses guard c.toImpl)
    (hvisits : Loop.Visits (fun c => .ok (guard c.toImpl)) evict c t)
    (hguard : guard t.toImpl = true) :
    t.Contracted ∧ ∃ target t', t.evict = .ok t' ∧
      t'.calls = t.calls ++ [.deletedItem target] ∧ Tracked t.calls target ∧
      ∀ k, Tracked t.calls k → k ≠ target →
        Policy.lru.age t.calls k < Policy.lru.age t.calls target := by
  have hevict : ∀ s s' : Logged, s.evict = .ok s' → s.toImpl.evict = .ok s'.toImpl := by
    intro s s' hs
    rw [← evict_toImpl, hs, ok_map]
  obtain ⟨ht, m', hr'⟩ : t.Contracted ∧ ∃ m', Refines t.toImpl m' := by
    refine hvisits.invariant (fun t => t.Contracted ∧ ∃ m', Refines t.toImpl m') ?_ ⟨h, m, hr⟩
    rintro s s' ⟨hs, m₁, hr₁⟩ ⟨-, hs'⟩
    obtain ⟨key, rc, -, hdel⟩ := Impl.evict_eq_ok.mp (hevict s s' hs')
    obtain ⟨c', hdel', hr₂, -⟩ := hr₁.del key
    cases hdel.symm.trans hdel'
    exact ⟨hs.evict hs', _, hr₂⟩
  have hvisits' : Loop.Visits (fun c => .ok (guard c)) Impl.evict c.toImpl t.toImpl :=
    hvisits.map toImpl fun s s' hs => ⟨hs.1, hevict s s' hs.2⟩
  obtain ⟨hlisted, t₁, -, ht₁, -⟩ := hloop.evicts t.toImpl hvisits' hguard
  rw [← evict_toImpl, map_eq_ok] at ht₁
  obtain ⟨t', ht', -⟩ := ht₁
  obtain ⟨key, hkey⟩ := List.exists_mem_of_ne_nil _ hlisted
  obtain ⟨target, htarget, htracked, holdest⟩ :=
    ht.represents.getEvictTarget ((ht.represents.tracked key).mp hkey)
  exact ⟨ht, target, t', ht', evict_calls hr'.agrees htarget
    ((ht.represents.tracked target).mpr htracked) ht', htracked, holdest⟩

/-- Whatever is called on a new cache, it returns what it returns without the log, and the calls
that it makes of its evictor keep to the contract: an untracked key is added, a tracked key is
accessed. So wherever a further `set` or the destructor evicts, it evicts the tracked key that was
added or accessed the longest ago. -/
theorem evictor_contract (maxmem : UInt32) (ops : List Op) :
    ∃ c rets, run maxmem ops = .ok (c, rets) ∧ Impl.run maxmem ops = .ok (c.toImpl, rets) ∧
      Admitted Policy.lru.admits c.calls ∧ Policy.lru.run c.calls = .ok c.evictor ∧
      ∀ t, Evicting c t → Admitted Policy.lru.admits t.calls ∧ ∃ target t', t.evict = .ok t' ∧
        t'.calls = t.calls ++ [.deletedItem target] ∧ Tracked t.calls target ∧
        ∀ k, Tracked t.calls k → k ≠ target →
          Policy.lru.age t.calls k < Policy.lru.age t.calls target := by
  obtain ⟨c₀, hc₀, hr, -⟩ := Refines.run maxmem ops
  have hrun := hc₀
  rw [← run_toImpl, map_eq_ok] at hrun
  obtain ⟨⟨c, rets⟩, hc, h⟩ := hrun
  cases h
  have hcontract := Contracted.run hc
  refine ⟨c, _, hc, hc₀, hcontract.admitted, hcontract.evictor, ?_⟩
  intro t ht
  cases ht with
  | @set key val c₁ t hval hdrop hvisits hfull =>
    obtain ⟨c₁', hc₁', hr₁, hmax₁⟩ := hr.dropOld key
    rw [← dropOld_toImpl, hdrop] at hc₁'
    cases hc₁'
    have hloop := hr₁.makeRoom_progresses (hmax₁ ▸ hval)
    obtain ⟨ht, hevicts⟩ :=
      evicts_oldest (hcontract.dropOld hdrop) hr₁ hloop hvisits hfull
    exact ⟨ht.admitted, hevicts⟩
  | destroy hvisits hinUse =>
    obtain ⟨ht, hevicts⟩ :=
      evicts_oldest hcontract hr hr.destroy_progresses hvisits hinUse
    exact ⟨ht.admitted, hevicts⟩

/-- A third `set` evicts the first key. -/
theorem evictor_contract_evicts : ∃ c rets t',
    run 4 [.set (str "a") ⟨str "xyz", 3, rfl⟩, .set (str "b") ⟨str "z", 1, rfl⟩] = .ok (c, rets) ∧
      c.calls = [.addedItem (str "a"), .addedItem (str "b")] ∧ c.evict = .ok t' ∧
      t'.calls = c.calls ++ [.deletedItem (str "a")] := by
  obtain ⟨c, rets, hc, -, -, -, hevicts⟩ := evictor_contract 4
    [.set (str "a") ⟨str "xyz", 3, rfl⟩, .set (str "b") ⟨str "z", 1, rfl⟩]
  have hstate : (run 4 [.set (str "a") ⟨str "xyz", 3, rfl⟩, .set (str "b") ⟨str "z", 1, rfl⟩]).map
      (fun r => (r.1.calls, r.1.maxmem, r.1.usedmem, r.1.cacheMap.lookup (str "c"),
        r.1.evict.map calls)) =
      .ok ([.addedItem (str "a"), .addedItem (str "b")], 4, 4, none,
        .ok [.addedItem (str "a"), .addedItem (str "b"), .deletedItem (str "a")]) := rfl
  rw [hc, ok_map] at hstate
  simp only [Except.ok.injEq, Prod.mk.injEq] at hstate
  obtain ⟨hcalls, hmax, hused, hnone, hevict⟩ := hstate
  have hval : (2 : UInt32) ≤ c.maxmem := by
    rw [hmax]
    decide
  have hdrop : c.dropOld (str "c") = .ok c := by rw [dropOld, hnone]
  have hfull : c.overfull 2 = true := by
    rw [Impl.overfull, Impl.spaceUsed, hused, hmax]
    decide
  have hset : Evicting c c := @Evicting.set c _ ⟨str "yz", 2, rfl⟩ _ _ hval hdrop .refl hfull
  obtain ⟨-, target, t', ht', -⟩ := hevicts c hset
  rw [ht', ok_map] at hevict
  exact ⟨c, rets, t', hc, hcalls, ht', by rw [Except.ok.inj hevict, hcalls]; rfl⟩

end Logged

end NetCache.Cache
