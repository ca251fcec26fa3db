import NetCache.Capacity
import NetCache.Lib.WorkingSet

/-!
# The working-set guarantee

A key that has been used stays stored while it and everything used since then fit together
(`working_set`). The order of the entries records the last uses: what stands in front of a key has
been used after it, and is no larger than the largest size it had since (`Guarded`).
-/

namespace NetCache.Cache

open Lib Lib.Recency

/-- The key that a call uses: that of a `set` which stores, and of a `get` which hits. -/
def usedKey : Op → Ret → Option Str
  | .set key _, .code rc => if rc = 0 then some key else none
  | .get key, .value r => if r.val.isSome then some key else none
  | _, _ => none

/-- The keys that calls with these answers use. -/
def usedKeys (ops : List Op) (rets : List Ret) : List Str :=
  (ops.zip rets).filterMap fun e => usedKey e.1 e.2

/-- The item that a call stores under `k`. -/
def itemSet (k : Str) : Op → Ret → Option Blob
  | .set key val, .code rc => if key = k ∧ rc = 0 then some val else none
  | _, _ => none

/-- The item of the last `set` of `k` that stores, or else `old`. -/
def lastSet (k : Str) (old : Option Blob) (ops : List Op) (rets : List Ret) : Option Blob :=
  (ops.zip rets).foldl (fun last e => (itemSet k e.1 e.2).or last) old

/-- The size of the entry of `k`, or 0 without one. -/
def Impl.entrySize (c : Impl) (k : Str) : Nat :=
  match c.cacheMap.lookup k with
  | some b => b.size.toNat
  | none => 0

/-- The largest size that the entry of `k` has after one of the calls `ops` on `c`. -/
def Impl.peak (k : Str) : Impl → List Op → Nat
  | _, [] => 0
  | c, op :: ops =>
      match c.step op with
      | .ok (c', _) => max (c'.entrySize k) (peak k c' ops)
      | .error _ => 0

/-- The sum of the sizes of the entries that were used more recently than `k`, but for that of
`key`. -/
def Impl.newerSize (c : Impl) (k key : Str) : Nat :=
  (((c.evictor.keyList.values.erase key).takeWhile (· ≠ k)).map c.entrySize).sum

/-- A history of calls on a new cache, cut at a use of `k` after which `k` is neither used nor
deleted. -/
structure LastUse (maxmem : UInt32) (k : Str) where
  before : List Op
  use : Op
  since : List Op
  /-- The cache before the use, after it, and after the calls since. -/
  (prior used now : Impl)
  retsBefore : List Ret
  ret : Ret
  retsSince : List Ret
  runBefore : Impl.run maxmem before = .ok (prior, retsBefore)
  step : prior.step use = .ok (used, ret)
  runSince : Machine.run Impl.step used since = .ok (now, retsSince)
  uses : usedKey use ret = some k
  unused : k ∉ usedKeys since retsSince
  undeleted : .del k ∉ since

namespace LastUse

variable {maxmem : UInt32} {k : Str}

/-- The size of `k` after its last use, and of each other key used since then the largest size
that its entry had since. -/
def workingSet (h : LastUse maxmem k) : Nat :=
  h.used.entrySize k + (usedKeys h.since h.retsSince).toFinset.sum fun key =>
    h.used.peak key h.since

/-- The item of the last `set` of `k` in the whole history. -/
def lastItem (h : LastUse maxmem k) : Option Blob :=
  lastSet k none (h.before ++ h.use :: h.since) (h.retsBefore ++ h.ret :: h.retsSince)

/-- The whole history is one run. -/
theorem run (h : LastUse maxmem k) : Impl.run maxmem (h.before ++ h.use :: h.since) =
    .ok (h.now, h.retsBefore ++ h.ret :: h.retsSince) :=
  Machine.run_append_ok h.runBefore
    (Machine.run_cons_ok.mpr ⟨h.used, h.ret, h.retsSince, h.step, h.runSince, rfl⟩)

end LastUse

theorem mem_usedKeys_cons {key : Str} {op : Op} {ops : List Op} {ret : Ret} {rets : List Ret} :
    key ∈ usedKeys (op :: ops) (ret :: rets) ↔
      usedKey op ret = some key ∨ key ∈ usedKeys ops rets := by
  simp only [usedKeys, List.zip_cons_cons, List.mem_filterMap, List.mem_cons, exists_eq_or_imp]

theorem Refines.entrySize {c : Impl} {m : Entries} (h : Refines c m) {k : Str} {b : Blob}
    (hk : m.lookup k = some b) : c.entrySize k = b.size.toNat := by
  rw [Impl.entrySize, h.lookup k, hk]

section Model

variable {A : Arithmetic} {m : Entries} {op : Op} {k : Str} {b : Blob}

/-- `k` holds `b`, and each entry in front of it has a key of `U` and a size that `P` allows. -/
abbrev Guards (U : Finset Str) (P : Str → Nat) (k : Str) (b : Blob) (m : Entries) : Prop :=
  Guarded (fun b => b.size.toNat) U P k b m

/-- A use puts `k` in front of all entries. -/
theorem guards_of_used (h : usedKey op (lruStep A m op).2 = some k) :
    ∃ b, ∀ U P, Guards U P k b (lruStep A m op).1 := by
  cases op with
  | set key val =>
    cases hval : A.refuses val with
    | true => simp [lruStep, hval, usedKey] at h
    | false =>
      simp only [lruStep, hval, usedKey, Bool.false_eq_true, if_false, if_true,
        Option.some.injEq] at h ⊢
      subst h
      exact ⟨val, fun U P => guarded_insert_self key val _⟩
  | get key =>
    cases hb : m.lookup key with
    | none => simp [lruStep, hb, usedKey, GetResult.ofEntry] at h
    | some b =>
      simp only [lruStep, hb, usedKey, GetResult.ofEntry, Option.isSome_some, if_true,
        Option.some.injEq] at h ⊢
      subst h
      rw [touch, hb]
      exact ⟨b, fun U P => guarded_insert_self key b m⟩
  | del key => cases h
  | spaceUsed => cases h

/-- No other call takes `k` away, while `k` and the bounds of all used keys fit together. -/
theorem guards_lruStep {maxmem : Nat} {U : Finset Str} {P : Str → Nat} (h : Guards U P k b m)
    (hused : ∀ key, usedKey op (lruStep (exact maxmem) m op).2 = some key → key ∈ U ∧ key ≠ k)
    (hdel : op ≠ .del k)
    (hP : ∀ key val, (lruStep (exact maxmem) m op).1.lookup key = some val →
      val.size.toNat ≤ P key)
    (hfits : b.size.toNat + U.sum P ≤ maxmem) :
    Guards U P k b (lruStep (exact maxmem) m op).1 := by
  cases op with
  | set key val =>
    cases hval : (exact maxmem).refuses val with
    | true => simpa only [lruStep, hval, if_true] using h
    | false =>
      simp only [lruStep, hval, usedKey, Bool.false_eq_true, if_false, if_true] at hused hP ⊢
      obtain ⟨hmem, hne⟩ := hused key rfl
      apply h.store hne hmem (hP key val (lookup_store_self key val m)) _ hfits
      intro m' hm'
      simpa [exact, total] using hm'
  | get key =>
    cases hb : m.lookup key with
    | none =>
      have htouch : touch key m = m := by simp [touch, hb]
      simpa only [lruStep, htouch] using h
    | some val =>
      simp only [lruStep, hb, usedKey, GetResult.ofEntry, Option.isSome_some, if_true,
        lookup_touch] at hused hP ⊢
      obtain ⟨hmem, hne⟩ := hused key rfl
      rw [touch, hb]
      exact h.insert hne hmem (hP key val hb)
  | del key =>
    have hne : key ≠ k := fun hk => hdel (congrArg Op.del hk)
    exact h.erase hne
  | spaceUsed => exact h

/-- A stored item is the last one set. -/
theorem lastSet_lruStep {last : Option Blob} (h : ∀ b, m.lookup k = some b → last = some b)
    (hb : (lruStep A m op).1.lookup k = some b) :
    (itemSet k op (lruStep A m op).2).or last = some b := by
  cases op with
  | set key val =>
    cases hval : A.refuses val with
    | true =>
      simp only [lruStep, hval, if_true] at hb ⊢
      simpa [itemSet] using h b hb
    | false =>
      simp only [lruStep, hval, Bool.false_eq_true, if_false] at hb ⊢
      by_cases hk : key = k
      · subst hk
        rw [lookup_store_self] at hb
        simpa [itemSet] using hb
      · have hold : m.lookup k = some b := by
          have hothers : (store (A.full val) key val m).lookup k = m.lookup k ∨
              (store (A.full val) key val m).lookup k = none := lookup_store_ne (Ne.symm hk) val m
          rcases hothers with he | he
          · exact he ▸ hb
          · rw [he] at hb
            cases hb
        simpa [itemSet, hk] using h b hold
  | get key =>
    rcases lookup_lruStep hb with hold | hset
    · exact h b hold
    · cases hset
  | del key =>
    rcases lookup_lruStep hb with hold | hset
    · exact h b hold
    · cases hset
  | spaceUsed => exact h b hb

theorem lastSet_lruAfter {last : Option Blob} (h : ∀ b, m.lookup k = some b → last = some b)
    {ops : List Op} (hb : (lruAfter A m ops).lookup k = some b) :
    lastSet k last ops (lruAnswers A m ops) = some b := by
  induction ops generalizing m last with
  | nil => exact h b hb
  | cons op ops ih => exact ih (fun b' hb' => lastSet_lruStep h hb') hb

end Model

/-- Nor does a run of calls, on the same conditions. -/
theorem Exact.guards_run {c c' : Impl} {m : Entries} (h : Exact c m) {U : Finset Str}
    {P : Str → Nat} {k : Str} {b : Blob} (hg : Guards U P k b m) {ops : List Op}
    {rets : List Ret} (hrun : Machine.run Impl.step c ops = .ok (c', rets))
    (hused : ∀ key ∈ usedKeys ops rets, key ∈ U ∧ key ≠ k) (hdel : .del k ∉ ops)
    (hP : ∀ key, c.peak key ops ≤ P key) (hfits : b.size.toNat + U.sum P ≤ c.maxmem.toNat) :
    ∃ m', Exact c' m' ∧ Guards U P k b m' := by
  induction ops generalizing c m rets with
  | nil =>
    cases hrun
    exact ⟨m, h, hg⟩
  | cons op ops ih =>
    obtain ⟨c₁, ret, rets', hstep, hrest, rfl⟩ := Machine.run_cons_ok.mp hrun
    obtain ⟨hr, rfl, hmax⟩ := h.of_step hstep
    have hpeak : ∀ key, max (c₁.entrySize key) (c₁.peak key ops) ≤ P key := by
      intro key
      simpa only [Impl.peak, hstep] using hP key
    have hg₁ : Guards U P k b (lruStep (exact c.maxmem.toNat) m op).1 := by
      apply guards_lruStep hg _ _ _ hfits
      · intro key hkey
        exact hused key (mem_usedKeys_cons.mpr (.inl hkey))
      · rintro rfl
        exact hdel List.mem_cons_self
      · intro key val hval
        exact hr.entrySize hval ▸ (le_max_left _ _).trans (hpeak key)
    apply ih hr hg₁ hrest
    · intro key hkey
      exact hused key (mem_usedKeys_cons.mpr (.inr hkey))
    · exact fun hmem => hdel (List.mem_cons_of_mem op hmem)
    · exact fun key => (le_max_right _ _).trans (hpeak key)
    · exact hmax ▸ hfits

/-- The keys in front of `k` in the evictor's list, but for `key`, are those of the entries that
were used more recently. -/
theorem Refines.newerSize {c : Impl} {m : Entries} (h : Refines c m) (k key : Str) :
    c.newerSize k key = newerWeight (fun b => b.size.toNat) k (m.erase key) := by
  have hkeys : c.evictor.keyList.values.erase key = (m.erase key).entries.map Sigma.fst := by
    rw [h.order, ← keys_erase_str]
    rfl
  rw [Impl.newerSize, hkeys, List.takeWhile_map, List.map_map]
  apply congrArg List.sum
  apply List.map_congr_left
  intro e he
  have hmem : e ∈ m.entries :=
    (List.kerase_sublist key _).subset ((newer_sublist k (m.erase key)).subset he)
  exact h.entrySize (AList.mem_lookup_iff.mpr hmem)

/-- A `set` of another key leaves an entry that fits together with those in front of it and the
new item. -/
theorem Exact.lookup_lruStep_set {c : Impl} {m : Entries} (h : Exact c m) {k key : Str}
    {b val : Blob} (hb : m.lookup k = some b) (hne : key ≠ k)
    (hfits : c.newerSize k key + b.size.toNat + val.size.toNat ≤ c.maxmem.toNat) :
    (lruStep (exact c.maxmem.toNat) m (.set key val)).1.lookup k = some b := by
  cases hval : (exact c.maxmem.toNat).refuses val with
  | true => simpa only [lruStep, hval, if_true] using hb
  | false =>
    rw [h.newerSize] at hfits
    simp only [lruStep, hval, Bool.false_eq_true, if_false]
    apply lookup_store_of_fits (w := fun b => b.size.toNat)
      (c.maxmem.toNat - val.size.toNat) hb hne
    · intro m' hm'
      have hover : c.maxmem.toNat < total m' + val.size.toNat := by simpa [exact] using hm'
      exact Nat.sub_lt_right_of_lt_add (by simpa [exact] using hval) hover
    · omega

/-- Below `2 ^ 31`, a `get` of a key that has been used, and not deleted since, returns the bytes
last set under it, as long as it fits together with all keys used since its last use. So a `set`
evicts no entry that fits together with the more recently used entries and the new item. -/
theorem working_set {maxmem : UInt32} (hsmall : maxmem.toNat < 2 ^ 31) :
    (∀ k (h : LastUse maxmem k), h.workingSet ≤ maxmem.toNat →
      ∃ b c', h.lastItem = some b ∧ h.now.get k = .ok (c', ⟨some b.bytes, b.size⟩)) ∧
    ∀ ops c rets, Impl.run maxmem ops = .ok (c, rets) →
      ∀ k b, c.cacheMap.lookup k = some b → ∀ key val c' rc, key ≠ k →
        c.set key val = .ok (c', rc) →
        c.newerSize k key + b.size.toNat + val.size.toNat ≤ maxmem.toNat →
        c'.cacheMap.lookup k = some b := by
  constructor
  · intro k h hfits
    obtain ⟨hr₀, -, hmax₀⟩ := Exact.of_run hsmall h.runBefore
    obtain ⟨hr₁, hret, hmax₁⟩ := hr₀.of_step h.step
    obtain ⟨b, hguards⟩ := guards_of_used (hret ▸ h.uses)
    have hsize : h.used.entrySize k = b.size.toNat := hr₁.entrySize (hguards ∅ 0).kept
    obtain ⟨m, hr, hg⟩ := hr₁.guards_run (hguards _ _) h.runSince
      (U := (usedKeys h.since h.retsSince).toFinset)
      (P := fun key => h.used.peak key h.since)
      (fun key hkey => ⟨List.mem_toFinset.mpr hkey, fun hk => h.unused (hk ▸ hkey)⟩)
      h.undeleted (fun _ => le_rfl) (by rwa [← hsize, hmax₁, hmax₀])
    obtain ⟨c', hget, -, -⟩ := hr.get k
    rw [hg.kept] at hget
    refine ⟨b, c', ?_, hget⟩
    -- the whole history ends with the same entry under `k`, which is the last one set
    obtain ⟨hr₂, hrets, -⟩ := Exact.of_run hsmall h.run
    rw [LastUse.lastItem, hrets]
    apply lastSet_lruAfter
    · intro b' hb'
      cases hb'
    · rw [← hr₂.lookup, hr.lookup, hg.kept]
  · intro ops c rets hrun k b hb key val c' rc hne hset hfits
    obtain ⟨hr, -, hmax⟩ := Exact.of_run hsmall hrun
    have hstep : c.step (.set key val) = .ok (c', .code rc) := Impl.step_eq_ok.mpr (.set hset)
    obtain ⟨hr₂, -⟩ := hr.of_step hstep
    rw [hr₂.lookup]
    exact hr.lookup_lruStep_set (hr.lookup k ▸ hb) hne (by rwa [hmax])

/-- A history on a cache of capacity 5 whose last use of `a` is a hit: `b` is then set twice and
deleted, a `get` misses, an item for `a` is refused, and `c` comes in. -/
def afterHit : LastUse 5 (str "a") where
  before := [.set (str "z") ⟨[7, 7], 2, rfl⟩, .set (str "a") ⟨[1, 2], 2, rfl⟩]
  use := .get (str "a")
  since := [.set (str "b") ⟨[3, 4], 2, rfl⟩, .set (str "b") ⟨[5], 1, rfl⟩, .get (str "z"),
    .set (str "a") ⟨List.replicate 6 0, 6, rfl⟩, .set (str "c") ⟨[6], 1, rfl⟩, .del (str "b")]
  prior := _
  used := _
  now := _
  retsBefore := _
  ret := _
  retsSince := _
  runBefore := rfl
  step := rfl
  runSince := rfl
  uses := by decide
  unused := by decide
  undeleted := by decide

/-- There `a`, `b` and `c` just fit, and `a` stays; it also stays when two more bytes come in,
which fit together with `a` and `c`. -/
theorem working_set_afterHit :
    (∃ b c', afterHit.lastItem = some b ∧
      afterHit.now.get (str "a") = .ok (c', ⟨some b.bytes, b.size⟩)) ∧
    ∃ c' rc, afterHit.now.set (str "d") ⟨[8, 8], 2, rfl⟩ = .ok (c', rc) ∧
      c'.cacheMap.lookup (str "a") = some ⟨[1, 2], 2, rfl⟩ :=
  ⟨(working_set (by decide)).1 _ afterHit (by decide), _, _, rfl,
    (working_set (by decide)).2 _ _ _ afterHit.run (str "a") ⟨[1, 2], 2, rfl⟩ (by decide)
      (str "d") ⟨[8, 8], 2, rfl⟩ _ _ (by decide) rfl (by decide)⟩

end NetCache.Cache
