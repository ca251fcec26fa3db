import NetCache.WorkingSet
import NetCache.Lib.History
import NetCache.Lib.Replay

/-!
# What the cache still knows

A cache may forget an entry whenever it needs room. What it has not forgotten is what was last set
under the key and not deleted since (`get_current`), it forgets nothing exactly as long as all
that was set and not deleted fits (`complete_iff`), and what it forgets for a new item has been
idle longer than anything that it keeps (`set_evicts_idle`).
-/

namespace NetCache.Cache

open Lib Lib.History Lib.Recency Lib.Replay

/-- What a call does to the keys and values, by what it returns. -/
def update : Op → Ret → Update Str Blob
  | .set key val, .code rc => if rc = 0 then .put key val else .keep
  | .del key, _ => .drop key
  | _, _ => .keep

/-- What the calls `ops` with these answers do. -/
def updates (ops : List Op) (rets : List Ret) : List (Update Str Blob) :=
  List.zipWith update ops rets

/-- The number of calls after the last one that used `k`. -/
def idle (ops : List Op) (rets : List Ret) (k : Str) : Nat :=
  since (fun e => decide (usedKey e.1 e.2 = some k)) (ops.zip rets)

section Model

variable {A : Arithmetic} {m : Entries}

theorem length_lruAnswers (A : Arithmetic) (m : Entries) (ops : List Op) :
    (lruAnswers A m ops).length = ops.length := by
  induction ops generalizing m with
  | nil => rfl
  | cons op ops ih => rw [lruAnswers, List.length_cons, List.length_cons, ih]

theorem lruAnswers_snoc (A : Arithmetic) (m : Entries) (ops : List Op) (op : Op) :
    lruAnswers A m (ops ++ [op]) = lruAnswers A m ops ++ [(lruStep A (lruAfter A m ops) op).2] := by
  induction ops generalizing m with
  | nil => rfl
  | cons o ops ih =>
    rw [List.cons_append, lruAnswers, ih, lruAnswers, List.cons_append]
    rfl

theorem updates_snoc (A : Arithmetic) (ops : List Op) (op : Op) :
    updates (ops ++ [op]) (lruAnswers A ∅ (ops ++ [op])) =
      updates ops (lruAnswers A ∅ ops) ++ [update op (lruStep A (lruAfter A ∅ ops) op).2] := by
  rw [updates, lruAnswers_snoc, List.zipWith_append (length_lruAnswers A ∅ ops).symm]
  rfl

theorem same_touch (key : Str) (m : Entries) : Same (touch key m) m := fun k => lookup_touch key k m

/-- A call loses entries at most. -/
theorem within_lruStep (A : Arithmetic) (m : Entries) (op : Op) :
    Within (lruStep A m op).1 ((update op (lruStep A m op).2).apply m) := by
  cases op with
  | set key val =>
    cases hval : A.refuses val with
    | true =>
      simp only [lruStep, hval, if_true, update]
      exact .refl m
    | false =>
      simp only [lruStep, hval, Bool.false_eq_true, if_false, update]
      exact .store _ key val m
  | get key =>
    intro k b hk
    exact (same_touch key m k).symm.trans hk
  | del key => exact .refl _
  | spaceUsed => exact .refl m

/-- What is stored after some calls is what they leave in a map. -/
theorem within_lruAfter (A : Arithmetic) (ops : List Op) :
    Within (lruAfter A ∅ ops) (replay (updates ops (lruAnswers A ∅ ops))) := by
  induction ops using List.reverseRecOn with
  | nil => exact .refl ∅
  | append_singleton ops op ih =>
    rw [lruAfter_snoc, updates_snoc]
    exact ih.snoc (within_lruStep A _ op)

end Model

theorem within_of_run {maxmem : UInt32} {ops : List Op} {c : Impl} {rets : List Ret}
    (h : Impl.run maxmem ops = .ok (c, rets)) :
    Within c.cacheMap (replay (updates ops rets)) := by
  obtain ⟨c₁, hrun, hr, -⟩ := Refines.run maxmem ops
  cases h.symm.trans hrun
  intro k b hb
  rw [hr.lookup] at hb
  exact within_lruAfter (wrapping maxmem) ops k b hb

/-- Whatever the capacity and the calls before it, a `get` returns what was last set under its key
by a `set` that returned 0, with no `del` of the key since, or it returns null. -/
theorem get_current (maxmem : UInt32) (ops : List Op) :
    ∃ c rets, Impl.run maxmem ops = .ok (c, rets) ∧ ∀ key, ∃ c' r, c.get key = .ok (c', r) ∧
      (r = .ofEntry none ∨ ∃ before b after, r = .ofEntry (some b) ∧
        updates ops rets = before ++ .put key b :: after ∧ ∀ u ∈ after, u.Leaves key) := by
  obtain ⟨c, hrun, hr, -⟩ := Refines.run maxmem ops
  refine ⟨c, _, hrun, ?_⟩
  intro key
  obtain ⟨c', hget, -⟩ := hr.get key
  refine ⟨c', _, hget, ?_⟩
  rw [← hr.lookup]
  cases hb : c.cacheMap.lookup key with
  | none => exact .inl rfl
  | some b =>
    rcases lookup_replay (within_of_run hrun key b hb) with ⟨before, after, hsplit, hafter⟩
    exact .inr ⟨before, b, after, rfl, hsplit, hafter⟩

/-! ## A cache that is large enough -/

/-- A call that leaves no more than the capacity in a map loses nothing. -/
theorem same_lruStep {maxmem : Nat} {m n : Entries} (h : Same m n) {op : Op}
    (hfits : total ((update op (lruStep (exact maxmem) m op).2).apply n) ≤ maxmem) :
    Same (lruStep (exact maxmem) m op).1 ((update op (lruStep (exact maxmem) m op).2).apply n) := by
  cases op with
  | set key val =>
    cases hval : (exact maxmem).refuses val with
    | true =>
      simp only [lruStep, hval, if_true, update]
      exact h
    | false =>
      simp only [lruStep, hval, Bool.false_eq_true, if_false, if_true, update, Update.apply,
        total_insert] at hfits ⊢
      have herase : total (m.erase key) = total (n.erase key) :=
        (h.apply (.drop key)).weight fun b => b.size.toNat
      have hroom : (exact maxmem).full val (m.erase key) = false := by
        simp only [exact, gt_iff_lt, decide_eq_false_iff_not, not_lt]
        omega
      intro k
      exact (Same.store val hroom k).trans (h.apply (.put key val) k)
  | get key =>
    intro k
    exact (same_touch key m k).trans (h k)
  | del key => exact h.apply (.drop key)
  | spaceUsed => exact h

/-- Below capacity `2 ^ 31`, the cache holds after each call all that was set and not deleted so
far, if and only if the sizes of this never add up to more than the capacity. -/
theorem complete_iff {maxmem : UInt32} (hsmall : maxmem.toNat < 2 ^ 31) (ops : List Op) :
    (∀ pre, pre <+: ops → ∃ c rets, Impl.run maxmem pre = .ok (c, rets) ∧
      Same c.cacheMap (replay (updates pre rets))) ↔
    ∀ pre, pre <+: ops → ∃ c rets, Impl.run maxmem pre = .ok (c, rets) ∧
      total (replay (updates pre rets)) ≤ maxmem.toNat := by
  constructor
  · intro hsame pre hpre
    obtain ⟨c, rets, hrun, hs⟩ := hsame pre hpre
    obtain ⟨hx, -, hmax⟩ := Exact.of_run hsmall hrun
    refine ⟨c, rets, hrun, ?_⟩
    have hstored : total c.cacheMap ≤ maxmem.toNat := by
      rw [← hmax, total, weight_perm hx.stored]
      exact hx.within
    rwa [total, ← hs.weight]
  · intro hfits pre hpre
    obtain ⟨c, hrun, hx, -⟩ := Exact.run hsmall pre
    refine ⟨c, _, hrun, ?_⟩
    suffices hmodel : Same (lruAfter (exact maxmem.toNat) ∅ pre)
        (replay (updates pre (lruAnswers (exact maxmem.toNat) ∅ pre))) from
      fun k => (hx.lookup k).trans (hmodel k)
    clear hrun hx
    induction pre using List.reverseRecOn with
    | nil => exact fun _ => rfl
    | append_singleton pre op ih =>
      have hm := ih ((List.prefix_append pre [op]).trans hpre)
      obtain ⟨c₁, rets₁, hrun₁, htotal⟩ := hfits _ hpre
      obtain ⟨-, rfl, -⟩ := Exact.of_run hsmall hrun₁
      rw [updates_snoc, replay_snoc] at htotal ⊢
      rw [lruAfter_snoc]
      exact same_lruStep hm htotal

/-- Three values of one byte, one of them overwritten by two bytes, in a cache of capacity 4. -/
theorem complete_iff_four :
    let ops : List Op := [.set [97] ⟨[1], 1, rfl⟩, .set [98] ⟨[2], 1, rfl⟩,
      .set [97] ⟨[3, 4], 2, rfl⟩, .get [98], .set [99] ⟨[5], 1, rfl⟩]
    ∃ c rets, Impl.run 4 ops = .ok (c, rets) ∧ Same c.cacheMap (replay (updates ops rets)) := by
  intro ops
  have hsmall : (4 : UInt32).toNat < 2 ^ 31 := by decide
  have hfits : ∀ pre ∈ ops.inits,
      total (replay (updates pre (lruAnswers (wrapping 4) ∅ pre))) ≤ 4 := by decide
  refine (complete_iff hsmall ops).mpr ?_ ops List.prefix_rfl
  intro pre hpre
  obtain ⟨c, hrun, -⟩ := Refines.run 4 pre
  exact ⟨c, _, hrun, hfits pre ((List.mem_inits _ _).mpr hpre)⟩

/-! ## What is forgotten first -/

section Idle

variable {A : Arithmetic} {ops : List Op} {op : Op}

theorem zip_snoc (A : Arithmetic) (ops : List Op) (op : Op) :
    (ops ++ [op]).zip (lruAnswers A ∅ (ops ++ [op])) =
      ops.zip (lruAnswers A ∅ ops) ++ [(op, (lruStep A (lruAfter A ∅ ops) op).2)] := by
  rw [lruAnswers_snoc, List.zip_append (length_lruAnswers A ∅ ops).symm]
  rfl

theorem idle_of_used {k : Str} (h : usedKey op (lruStep A (lruAfter A ∅ ops) op).2 = some k) :
    idle (ops ++ [op]) (lruAnswers A ∅ (ops ++ [op])) k = 0 := by
  rw [idle, zip_snoc]
  apply since_snoc_of_pos
  exact decide_eq_true h

theorem idle_of_not_used {k : Str}
    (h : usedKey op (lruStep A (lruAfter A ∅ ops) op).2 ≠ some k) :
    idle (ops ++ [op]) (lruAnswers A ∅ (ops ++ [op])) k = idle ops (lruAnswers A ∅ ops) k + 1 := by
  rw [idle, zip_snoc, idle]
  apply since_snoc_of_neg
  exact decide_eq_false h

/-- A call that uses a key puts it in front of the keys that remain, and any other call removes
keys at most. -/
theorem keys_lruStep (m : Entries) (op : Op) :
    (∃ key l, usedKey op (lruStep A m op).2 = some key ∧ (lruStep A m op).1.keys = key :: l ∧
      l.Sublist m.keys ∧ key ∉ l) ∨
    usedKey op (lruStep A m op).2 = none ∧ (lruStep A m op).1.keys.Sublist m.keys := by
  cases op with
  | set key val =>
    cases hval : A.refuses val with
    | true => exact .inr (by simp [lruStep, hval, usedKey])
    | false =>
      have habsent := lookup_erase_self_shrink (A.full val) key m
      have hnew : (store (A.full val) key val m).keys =
          key :: (shrink (A.full val) (m.erase key)).keys := by
        rw [store, AList.keys, AList.entries_insert_of_notMem (AList.lookup_eq_none.mp habsent)]
        rfl
      refine .inl ⟨key, (shrink (A.full val) (m.erase key)).keys, ?_, ?_, ?_, ?_⟩
      · simp [lruStep, hval, usedKey]
      · simp only [lruStep, hval, Bool.false_eq_true, if_false]
        exact hnew
      · have herase : (m.erase key).keys.Sublist m.keys := by
          rw [keys_erase_str]
          exact List.erase_sublist
        exact ((List.take_sublist _ _).map _).trans herase
      · exact fun hmem => AList.lookup_eq_none.mp habsent (AList.mem_keys.mpr hmem)
  | get key =>
    cases hb : m.lookup key with
    | none => exact .inr (by simp [lruStep, touch, hb, usedKey, GetResult.ofEntry])
    | some b =>
      refine .inl ⟨key, m.keys.erase key, ?_, ?_, List.erase_sublist, ?_⟩
      · simp [lruStep, hb, usedKey, GetResult.ofEntry]
      · simp only [lruStep, touch, hb, ← keys_erase_str]
        rfl
      · exact fun hmem => ((AList.keys_nodup m).mem_erase_iff.mp hmem).1 rfl
  | del key =>
    refine .inr ⟨rfl, ?_⟩
    show (m.erase key).keys.Sublist m.keys
    rw [keys_erase_str]
    exact List.erase_sublist
  | spaceUsed => exact .inr ⟨rfl, List.Sublist.refl _⟩

/-- The listed keys stand in the order of their last uses. -/
theorem ageing_lruAfter (A : Arithmetic) (ops : List Op) :
    Ageing (idle ops (lruAnswers A ∅ ops)) (lruAfter A ∅ ops).keys := by
  induction ops using List.reverseRecOn with
  | nil => exact List.Pairwise.nil
  | append_singleton ops op ih =>
    rw [lruAfter_snoc]
    rcases keys_lruStep (A := A) (lruAfter A ∅ ops) op with ⟨key, l, hused, hkeys, hl, hnot⟩ |
      ⟨hused, hl⟩
    · rw [hkeys]
      refine (ih.sublist hl).cons (idle_of_used hused) ?_
      intro k hk
      apply idle_of_not_used
      rw [hused]
      rintro ⟨⟩
      exact hnot hk
    · refine (ih.sublist hl).older ?_
      intro k hk
      apply idle_of_not_used
      rw [hused]
      nofun

end Idle

theorem Refines.mem_iff {c : Impl} {m : Entries} (h : Refines c m) {k : Str} :
    k ∈ c.cacheMap ↔ k ∈ m := by
  rw [← AList.lookup_isSome, h.lookup k, AList.lookup_isSome]

/-- Whatever the capacity and the calls before it, each entry that a `set` evicts has not been
used, by a `set` that stored it or a `get` that found it, for longer than any other entry that is
stored after the `set`. -/
theorem set_evicts_idle (maxmem : UInt32) (ops : List Op) :
    ∃ c rets, Impl.run maxmem ops = .ok (c, rets) ∧ ∀ key val c', c.set key val = .ok (c', 0) →
      ∀ k k', k ∈ c.cacheMap → k ∉ c'.cacheMap → k' ∈ c'.cacheMap → k' ≠ key →
        idle ops rets k' < idle ops rets k := by
  obtain ⟨c, hrun, hr, hmax⟩ := Refines.run maxmem ops
  refine ⟨c, _, hrun, ?_⟩
  intro key val c' hset k k' hk hgone hk' hne
  have hval : val.size ≤ c.maxmem := by
    by_contra hval
    rw [Refines.set_refused key hval] at hset
    cases hset
  obtain ⟨c₁, hset₁, hr₁, -⟩ := hr.set key hval
  cases hset.symm.trans hset₁
  rw [hr.mem_iff] at hk
  rw [hr₁.mem_iff] at hgone hk'
  simp only [store, AList.mem_insert, not_or] at hgone hk'
  have herase : k ∈ ((lruAfter (wrapping maxmem) ∅ ops).erase key).keys :=
    AList.mem_keys.mp (AList.mem_erase.mpr ⟨hgone.1, hk⟩)
  have hage : Ageing (idle ops (lruAnswers (wrapping maxmem) ∅ ops))
      ((lruAfter (wrapping maxmem) ∅ ops).erase key).keys := by
    rw [keys_erase_str]
    exact (ageing_lruAfter (wrapping maxmem) ops).sublist List.erase_sublist
  -- what is kept is a front part of the order without `key`
  have hfront := hk'.resolve_left hne
  have hrest := hgone.2
  rw [AList.mem_keys, shrink, keys_newest] at hfront hrest
  exact hage.of_take hfront herase hrest

end NetCache.Cache
