import NetCache.Capacity
import NetCache.Lib.Inclusion

/-!
# A larger cache keeps what a smaller one keeps

Two caches that are sent the same calls, where all items have one size: what the smaller one
stores the larger one stores too, so a larger capacity never loses a hit (`lru_inclusion`). With
items of one size a capacity is a number of entries, and the two reference models are related by
`Includes`.
-/

namespace NetCache.Cache

open Lib Lib.Recency

/-- Every item that the call sets has the size `size`. -/
def Sized (size : UInt32) : Op → Prop
  | .set _ val => val.size = size
  | _ => True

instance (size : UInt32) : DecidablePred (Sized size) := fun op =>
  match op with
  | .set _ val => inferInstanceAs (Decidable (val.size = size))
  | .get _ => .isTrue trivial
  | .del _ => .isTrue trivial
  | .spaceUsed => .isTrue trivial

/-- A hit in the first cache is the same hit in the second. -/
def KeepsHit (r₁ r₂ : Ret) : Prop := ∀ val size, r₁ = .value ⟨some val, size⟩ → r₂ = r₁

theorem keepsHit_refl (r : Ret) : KeepsHit r r := fun _ _ _ => rfl

/-- All entries have the size `size`. -/
def Uniform (size : UInt32) (m : Entries) : Prop := ∀ k b, m.lookup k = some b → b.size = size

theorem uniform_empty (size : UInt32) : Uniform size ∅ := by
  intro k b h
  cases h

theorem uniform_lruStep {A : Arithmetic} {size : UInt32} {m : Entries} {op : Op}
    (hm : Uniform size m) (hop : Sized size op) : Uniform size (lruStep A m op).1 := by
  intro k b h
  rcases lookup_lruStep h with hold | rfl
  · exact hm k b hold
  · exact hop

theorem total_uniform {size : UInt32} {m : Entries} (hm : Uniform size m) :
    total m = m.entries.length * size.toNat := by
  have hmap : m.entries.map (fun e => e.2.size.toNat) =
      List.replicate m.entries.length size.toNat := by
    rw [List.eq_replicate_iff]
    refine ⟨List.length_map _, ?_⟩
    intro n hn
    obtain ⟨e, he, rfl⟩ := List.mem_map.mp hn
    exact congrArg UInt32.toNat (hm e.1 e.2 (AList.mem_lookup_iff.mpr he))
  show (m.entries.map fun e => e.2.size.toNat).sum = _
  rw [hmap, List.sum_replicate_nat]

theorem uniform_newest {size : UInt32} {m : Entries} (hm : Uniform size m) (n : Nat) :
    Uniform size (newest n m) := fun k b h => hm k b (lookup_newest h)

theorem uniform_erase {size : UInt32} {m : Entries} (hm : Uniform size m) (k : Str) :
    Uniform size (m.erase k) := by
  intro k' b h
  by_cases hk : k' = k
  · rw [hk, AList.lookup_erase] at h
    cases h
  · rw [AList.lookup_erase_ne hk] at h
    exact hm k' b h

/-- With entries and items of one size, which is not zero, a capacity is a number of entries. -/
theorem full_uniform {maxmem : Nat} {val : Blob} {m : Entries} (hm : Uniform val.size m)
    (hpos : 0 < val.size.toNat) :
    (exact maxmem).full val m = atCapacity (maxmem / val.size.toNat) m := by
  have hdiv : maxmem < (m.entries.length + 1) * val.size.toNat ↔
      maxmem / val.size.toNat ≤ m.entries.length := by
    rw [← Nat.div_lt_iff_lt_mul hpos, Nat.lt_succ_iff]
  simp only [exact, atCapacity, total_uniform hm, gt_iff_lt, ← hdiv, Nat.succ_mul]

theorem store_uniform {maxmem : Nat} {val : Blob} {m : Entries} (hm : Uniform val.size m)
    (hpos : 0 < val.size.toNat) (key : Str) :
    store ((exact maxmem).full val) key val m =
      store (atCapacity (maxmem / val.size.toNat)) key val m := by
  unfold store
  rw [shrink_congr]
  intro n
  exact full_uniform (uniform_newest (uniform_erase hm key) n) hpos

/-- The same `set` on both models: the smaller cache may refuse an item that the larger one
takes, and then has room for none. -/
theorem includes_set {max₁ max₂ : Nat} (hmax : max₁ ≤ max₂) {val : Blob}
    (hpos : 0 < val.size.toNat) {A B : Entries} (hA : Uniform val.size A)
    (hB : Uniform val.size B)
    (h : Includes (max₁ / val.size.toNat) (max₂ / val.size.toNat) A B) (key : Str) :
    Includes (max₁ / val.size.toNat) (max₂ / val.size.toNat)
      (lruStep (exact max₁) A (.set key val)).1 (lruStep (exact max₂) B (.set key val)).1 := by
  by_cases h₂ : val.size.toNat ≤ max₂
  · have hfit₂ : (exact max₂).refuses val = false := by simpa [exact] using h₂
    by_cases h₁ : val.size.toNat ≤ max₁
    · have hfit₁ : (exact max₁).refuses val = false := by simpa [exact] using h₁
      simp only [lruStep, hfit₁, hfit₂, Bool.false_eq_true, if_false]
      rw [store_uniform hA hpos, store_uniform hB hpos]
      exact h.store (Nat.div_le_div_right hmax) (Nat.div_pos h₁ hpos) key val
    · have hfit₁ : (exact max₁).refuses val = true := by simpa [exact] using h₁
      have hzero : max₁ / val.size.toNat = 0 := Nat.div_eq_of_lt (Nat.lt_of_not_le h₁)
      simp only [lruStep, hfit₁, hfit₂, Bool.false_eq_true, if_false, if_true]
      rw [store_uniform hB hpos]
      rw [hzero] at h ⊢
      exact h.store_right (Nat.div_pos h₂ hpos) key val
  · have hfit₂ : (exact max₂).refuses val = true := by simpa [exact] using h₂
    have hfit₁ : (exact max₁).refuses val = true := by
      simpa [exact] using Nat.lt_of_le_of_lt hmax (Nat.lt_of_not_le h₂)
    simpa only [lruStep, hfit₁, hfit₂, if_true] using h

/-- One call, made on both models. -/
theorem includes_lruStep {max₁ max₂ : Nat} (hmax : max₁ ≤ max₂) {size : UInt32}
    (hpos : 0 < size.toNat) {A B : Entries} (hA : Uniform size A) (hB : Uniform size B)
    (h : Includes (max₁ / size.toNat) (max₂ / size.toNat) A B) {op : Op}
    (hop : Sized size op) :
    Includes (max₁ / size.toNat) (max₂ / size.toNat) (lruStep (exact max₁) A op).1
        (lruStep (exact max₂) B op).1 ∧
      KeepsHit (lruStep (exact max₁) A op).2 (lruStep (exact max₂) B op).2 := by
  cases op with
  | set key val =>
    obtain rfl : val.size = size := hop
    refine ⟨includes_set hmax hpos hA hB h key, ?_⟩
    intro bytes n hret
    simp only [lruStep] at hret
    split at hret <;> cases hret
  | get key =>
    refine ⟨h.touch key, ?_⟩
    intro bytes n hret
    cases hk : A.lookup key with
    | none =>
      simp only [lruStep, hk, GetResult.ofEntry] at hret
      cases hret
    | some b => simp only [lruStep, hk, h.lookup hk]
  | del key => exact ⟨h.erase key, keepsHit_refl _⟩
  | spaceUsed =>
    refine ⟨h, ?_⟩
    intro bytes n hret
    cases hret

/-- The same for a list of calls. -/
theorem includes_run {max₁ max₂ : Nat} (hmax : max₁ ≤ max₂) {size : UInt32}
    (hpos : 0 < size.toNat) {A B : Entries} (hA : Uniform size A) (hB : Uniform size B)
    (h : Includes (max₁ / size.toNat) (max₂ / size.toNat) A B) {ops : List Op}
    (hops : ∀ op ∈ ops, Sized size op) :
    Includes (max₁ / size.toNat) (max₂ / size.toNat) (lruAfter (exact max₁) A ops)
        (lruAfter (exact max₂) B ops) ∧
      List.Forall₂ KeepsHit (lruAnswers (exact max₁) A ops) (lruAnswers (exact max₂) B ops) := by
  induction ops generalizing A B with
  | nil => exact ⟨h, .nil⟩
  | cons op ops ih =>
    have hop := hops op List.mem_cons_self
    obtain ⟨hstep, hkeeps⟩ := includes_lruStep hmax hpos hA hB h hop
    obtain ⟨hrun, hanswers⟩ := ih (uniform_lruStep hA hop) (uniform_lruStep hB hop) hstep
      fun o ho => hops o (List.mem_cons_of_mem op ho)
    exact ⟨hrun, .cons hkeeps hanswers⟩

/-- Items of size zero fit into every cache, so all caches do the same with them. -/
theorem lruStep_sizeless {max₁ max₂ : Nat} {m : Entries} (hm : Uniform 0 m) {op : Op}
    (hop : Sized 0 op) : lruStep (exact max₁) m op = lruStep (exact max₂) m op := by
  cases op with
  | set key val =>
    have hzero : val.size.toNat = 0 := congrArg UInt32.toNat hop
    have hrefuses : ∀ n, (exact n).refuses val = false := by
      intro n
      simp [exact, hzero]
    have hroom : shrink ((exact max₁).full val) (m.erase key) =
        shrink ((exact max₂).full val) (m.erase key) := by
      apply shrink_congr
      intro n
      have htotal : total (newest n (m.erase key)) = 0 :=
        (total_uniform (uniform_newest (uniform_erase hm key) n)).trans (Nat.mul_zero _)
      simp [exact, htotal, hzero]
    simp only [lruStep, hrefuses, Bool.false_eq_true, if_false, store, hroom]
  | get key => rfl
  | del key => rfl
  | spaceUsed => rfl

theorem lruRun_sizeless (max₁ max₂ : Nat) {m : Entries} (hm : Uniform 0 m) {ops : List Op}
    (hops : ∀ op ∈ ops, Sized 0 op) :
    lruAfter (exact max₁) m ops = lruAfter (exact max₂) m ops ∧
      List.Forall₂ KeepsHit (lruAnswers (exact max₁) m ops) (lruAnswers (exact max₂) m ops) := by
  induction ops generalizing m with
  | nil => exact ⟨rfl, .nil⟩
  | cons op ops ih =>
    have hop := hops op List.mem_cons_self
    have hstep : lruStep (exact max₁) m op = lruStep (exact max₂) m op := lruStep_sizeless hm hop
    obtain ⟨hafter, hanswers⟩ := ih (uniform_lruStep (A := exact max₁) hm hop)
      fun o ho => hops o (List.mem_cons_of_mem op ho)
    rw [hstep] at hafter hanswers
    refine ⟨?_, ?_⟩
    · simp only [lruAfter, List.foldl_cons, hstep] at hafter ⊢
      exact hafter
    · rw [lruAnswers, lruAnswers, hstep]
      exact .cons (keepsHit_refl _) hanswers

/-- Two new caches with capacities `m₁ ≤ m₂` below `2 ^ 31`, sent the same calls, all of whose
items have one size: after the calls (and so after each of them, as they are any list) every entry
of the smaller cache is in the larger one, with the same bytes, and every hit in the smaller cache
is the same hit in the larger one. -/
theorem lru_inclusion {m₁ m₂ : UInt32} (hle : m₁ ≤ m₂) (hsmall : m₂.toNat < 2 ^ 31)
    {size : UInt32} {ops : List Op} (hops : ∀ op ∈ ops, Sized size op) :
    ∃ c₁ c₂ rs₁ rs₂, Impl.run m₁ ops = .ok (c₁, rs₁) ∧ Impl.run m₂ ops = .ok (c₂, rs₂) ∧
      (∀ k b, c₁.cacheMap.lookup k = some b → c₂.cacheMap.lookup k = some b) ∧
      List.Forall₂ KeepsHit rs₁ rs₂ := by
  have hmax : m₁.toNat ≤ m₂.toNat := UInt32.le_iff_toNat_le.mp hle
  obtain ⟨c₁, hc₁, hr₁, -⟩ := Exact.run (Nat.lt_of_le_of_lt hmax hsmall) ops
  obtain ⟨c₂, hc₂, hr₂, -⟩ := Exact.run hsmall ops
  have hmodels : (∀ k b, (lruAfter (exact m₁.toNat) ∅ ops).lookup k = some b →
        (lruAfter (exact m₂.toNat) ∅ ops).lookup k = some b) ∧
      List.Forall₂ KeepsHit (lruAnswers (exact m₁.toNat) ∅ ops)
        (lruAnswers (exact m₂.toNat) ∅ ops) := by
    rcases Nat.eq_zero_or_pos size.toNat with hzero | hpos
    · obtain rfl : size = 0 := UInt32.toNat_inj.mp hzero
      obtain ⟨hafter, hanswers⟩ := lruRun_sizeless m₁.toNat m₂.toNat (uniform_empty 0) hops
      refine ⟨?_, hanswers⟩
      intro k b hk
      exact hafter ▸ hk
    · obtain ⟨hincludes, hanswers⟩ := includes_run hmax hpos (uniform_empty size)
        (uniform_empty size) (includes_empty (Nat.div_le_div_right hmax)) hops
      exact ⟨fun k b hk => hincludes.lookup hk, hanswers⟩
  refine ⟨c₁, c₂, _, _, hc₁, hc₂, ?_, hmodels.2⟩
  intro k b hk
  rw [hr₁.lookup] at hk
  rw [hr₂.lookup]
  exact hmodels.1 k b hk

/-- One byte an item: the cache of two has lost `a` where the cache of three still has it, and a
`get` of `a` reorders the larger cache only. -/
theorem lru_inclusion_two :
    let ops : List Op := [.set (str "a") ⟨[1], 1, rfl⟩, .set (str "b") ⟨[2], 1, rfl⟩,
      .set (str "c") ⟨[3], 1, rfl⟩, .get (str "a"), .get (str "b"), .del (str "c")]
    ∃ c₁ c₂ rs₁ rs₂, Impl.run 2 ops = .ok (c₁, rs₁) ∧ Impl.run 3 ops = .ok (c₂, rs₂) ∧
      (∀ k b, c₁.cacheMap.lookup k = some b → c₂.cacheMap.lookup k = some b) ∧
      List.Forall₂ KeepsHit rs₁ rs₂ :=
  lru_inclusion (by decide) (by decide) (show ∀ op ∈ _, Sized 1 op by decide)

end NetCache.Cache
