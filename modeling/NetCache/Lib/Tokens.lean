import Mathlib.Data.List.TakeWhile
import Mathlib.Algebra.Order.BigOperators.Group.List
import Mathlib.Algebra.Order.Ring.Nat

/-!
# Token scanning

`next p s` is one call of a `strtok`-like scanner on the unread input `s`: skip the separators
(the elements satisfying `p`), hand out the run of other elements that follows, and step over the
one separator that ends it. `tokens p s` is the list of all runs, defined through
`List.splitOnP`. The scanner reads off this list (`next_cons`, `next_nil`), and the list composes
over a separator (`tokens_append_cons`), so a text is analysed without following the scanner.
-/

namespace Lib.Tokens

variable {α : Type u} (p : α → Bool)

/-- One call of the scanner: the token, if there is one, and the unread rest. -/
def next (s : List α) : Option (List α) × List α :=
  match s.dropWhile p with
  | [] => (none, [])
  | c :: cs => (some ((c :: cs).takeWhile fun x => !p x), ((c :: cs).dropWhile fun x => !p x).tail)

/-- The maximal runs of non-separators, in order. -/
def tokens (s : List α) : List (List α) := (s.splitOnP p).filter fun t => !t.isEmpty

/-- A token: not empty and without a separator. -/
def IsToken (t : List α) : Prop := t ≠ [] ∧ ∀ x ∈ t, p x = false

variable {p}

@[simp] theorem tokens_nil : tokens p [] = [] := rfl

/-- The tokens around a separator are those before it and those after it. -/
theorem tokens_append_cons {d : α} (hd : p d = true) (s r : List α) :
    tokens p (s ++ d :: r) = tokens p s ++ tokens p r := by
  unfold tokens
  rw [List.splitOnP_append_cons s r hd, List.filter_append]

theorem tokens_cons {d : α} (hd : p d = true) (s : List α) : tokens p (d :: s) = tokens p s := by
  simpa using tokens_append_cons hd [] s

theorem tokens_of_isToken {t : List α} (ht : IsToken p t) : tokens p t = [t] := by
  unfold tokens
  rw [List.splitOnP_eq_singleton ht.2]
  simp [ht.1]

/-- A token followed by a separator heads the list of tokens. -/
theorem tokens_token_cons {t : List α} (ht : IsToken p t) {d : α} (hd : p d = true)
    (s : List α) : tokens p (t ++ d :: s) = t :: tokens p s := by
  rw [tokens_append_cons hd, tokens_of_isToken ht, List.singleton_append]

/-- The same where the separator is left to what follows. -/
theorem tokens_token_append {t : List α} (ht : IsToken p t) {r : List α}
    (hr : ∃ d s, r = d :: s ∧ p d = true) : tokens p (t ++ r) = t :: tokens p r := by
  obtain ⟨d, s, rfl, hd⟩ := hr
  rw [tokens_token_cons ht hd, tokens_cons hd]

theorem tokens_dropWhile (s : List α) : tokens p (s.dropWhile p) = tokens p s := by
  induction s with
  | nil => rfl
  | cons c cs ih =>
    cases hc : p c with
    | true => rw [List.dropWhile_cons_of_pos hc, ih, tokens_cons hc]
    | false => rw [List.dropWhile_cons_of_neg (by simp [hc])]

/-- A non-empty input that does not start with a separator splits into its first token and,
where the input goes on, a separator and a rest. -/
theorem split_first {c : α} (cs : List α) (hc : p c = false) :
    IsToken p ((c :: cs).takeWhile fun x => !p x) ∧
      ((c :: cs).dropWhile (fun x => !p x) = [] ∨
        ∃ d r, p d = true ∧ (c :: cs).dropWhile (fun x => !p x) = d :: r) := by
  refine ⟨⟨by simp [hc], fun x hx => by simpa using List.mem_takeWhile_imp hx⟩, ?_⟩
  cases h : (c :: cs).dropWhile fun x => !p x with
  | nil => exact .inl rfl
  | cons d r =>
    have hd := List.head_dropWhile_not (fun x => !p x) (l := c :: cs) (by simp [h])
    exact .inr ⟨d, r, by simpa [h] using hd, rfl⟩

theorem next_nil {s : List α} (h : tokens p s = []) : next p s = (none, []) := by
  unfold next
  split
  · rfl
  · rename_i c cs hs
    have hc : p c = false := by
      have := List.head_dropWhile_not p (l := s) (by simp [hs])
      simpa [hs] using this
    obtain ⟨ht, hr⟩ := split_first cs hc
    have hcs := List.takeWhile_append_dropWhile (p := fun x => !p x) (l := c :: cs)
    rw [← tokens_dropWhile, hs, ← hcs] at h
    rcases hr with hr | ⟨d, r, hd, hr⟩
    · rw [hr, List.append_nil, tokens_of_isToken ht] at h
      cases h
    · rw [hr, tokens_token_cons ht hd] at h
      cases h

/-- The scanner hands out the first token; the others are the tokens of the unread rest, which
has become shorter. -/
theorem next_cons {s t : List α} {ts : List (List α)} (h : tokens p s = t :: ts) :
    ∃ r, next p s = (some t, r) ∧ tokens p r = ts ∧ r.length < s.length := by
  have hlen : (s.dropWhile p).length ≤ s.length := (List.dropWhile_suffix p).length_le
  unfold next
  split
  · rename_i hs
    rw [← tokens_dropWhile, hs] at h
    cases h
  · rename_i c cs hs
    have hc : p c = false := by
      have := List.head_dropWhile_not p (l := s) (by simp [hs])
      simpa [hs] using this
    obtain ⟨ht, hr⟩ := split_first cs hc
    have hcs := List.takeWhile_append_dropWhile (p := fun x => !p x) (l := c :: cs)
    rw [← tokens_dropWhile, hs, ← hcs] at h
    rw [hs] at hlen
    rcases hr with hr | ⟨d, r, hd, hr⟩
    · rw [hr, List.append_nil, tokens_of_isToken ht] at h
      cases h
      exact ⟨[], by rw [hr]; rfl, rfl, by simp at hlen ⊢; omega⟩
    · rw [hr, tokens_token_cons ht hd] at h
      cases h
      refine ⟨r, by rw [hr]; rfl, rfl, ?_⟩
      have := congrArg List.length hcs
      simp only [hr, List.length_append, List.length_cons] at this hlen ⊢
      omega

/-- One call of the scanner, in terms of the tokens: it hands out the first one, and the others
are those of the unread rest. -/
theorem next_eq (s : List α) :
    ∃ r, next p s = ((tokens p s).head?, r) ∧ tokens p r = (tokens p s).tail := by
  cases h : tokens p s with
  | nil => exact ⟨[], next_nil h, rfl⟩
  | cons t ts =>
    obtain ⟨r, hr, hts, -⟩ := next_cons h
    exact ⟨r, hr, hts⟩

/-- The pieces between separators: no separator in them, and no more in all than the input. -/
theorem mem_splitOnP {s t : List α} (h : t ∈ s.splitOnP p) : (∀ x ∈ t, p x = false) ∧ t ⊆ s := by
  induction s generalizing t with
  | nil =>
    rw [List.splitOnP_nil, List.mem_singleton] at h
    simp [h]
  | cons c cs ih =>
    obtain ⟨u, us, hu⟩ := List.exists_cons_of_ne_nil (List.splitOnP_ne_nil p cs)
    rw [List.splitOnP_cons_eq_if_modifyHead] at h
    rw [hu] at h ih
    cases hc : p c with
    | true =>
      rw [if_pos hc, List.mem_cons] at h
      rcases h with rfl | h
      · simp
      · exact ⟨(ih h).1, List.subset_cons_of_subset c (ih h).2⟩
    | false =>
      rw [if_neg (by simp [hc]), List.modifyHead_cons, List.mem_cons] at h
      rcases h with rfl | h
      · obtain ⟨hp, hs⟩ := ih List.mem_cons_self
        exact ⟨by simpa [hc] using hp, List.cons_subset_cons c hs⟩
      · obtain ⟨hp, hs⟩ := ih (List.mem_cons_of_mem u h)
        exact ⟨hp, List.subset_cons_of_subset c hs⟩

/-- Every member of `tokens` is a token whose elements come from the input. -/
theorem isToken_of_mem {s t : List α} (h : t ∈ tokens p s) : IsToken p t ∧ t ⊆ s := by
  obtain ⟨hm, hne⟩ := List.mem_filter.mp h
  obtain ⟨hp, hs⟩ := mem_splitOnP hm
  exact ⟨⟨by simpa using hne, hp⟩, hs⟩

theorem length_splitOnP (s : List α) :
    ((s.splitOnP p).map List.length).sum + (s.splitOnP p).length = s.length + 1 := by
  induction s with
  | nil => rfl
  | cons c cs ih =>
    obtain ⟨u, us, hu⟩ := List.exists_cons_of_ne_nil (List.splitOnP_ne_nil p cs)
    rw [hu] at ih
    rw [List.splitOnP_cons_eq_if_modifyHead, hu]
    split
    · simp only [List.map_cons, List.sum_cons, List.length_cons, List.length_nil] at ih ⊢
      omega
    · simp only [List.modifyHead_cons, List.map_cons, List.sum_cons, List.length_cons] at ih ⊢
      omega

/-- The tokens together with one separator after each fit into the input and one more. -/
theorem length_tokens (s : List α) :
    ((tokens p s).map List.length).sum + (tokens p s).length ≤ s.length + 1 := by
  have hsub : (tokens p s).Sublist (s.splitOnP p) := List.filter_sublist
  have hsum : ((tokens p s).map List.length).sum ≤ ((s.splitOnP p).map List.length).sum :=
    (hsub.map _).sum_le_sum fun _ _ => Nat.zero_le _
  have := length_splitOnP (p := p) s
  have := hsub.length_le
  omega

theorem length_tokens_le (s : List α) : (tokens p s).length ≤ s.length := by
  have hone : ∀ n ∈ (tokens p s).map List.length, 1 ≤ n := by
    intro n hn
    obtain ⟨t, ht, rfl⟩ := List.mem_map.mp hn
    exact List.length_pos_iff.mpr (isToken_of_mem ht).1.1
  have hsum := List.length_le_sum_of_one_le _ hone
  have := length_tokens (p := p) s
  rw [List.length_map] at hsum
  omega

theorem length_le_of_mem {s t : List α} (h : t ∈ tokens p s) : t.length ≤ s.length := by
  have hsum := List.single_le_sum (l := (tokens p s).map List.length) (fun _ _ => Nat.zero_le _)
    t.length (List.mem_map_of_mem h)
  have hpos := List.length_pos_of_mem h
  have := length_tokens (p := p) s
  omega

/-- An input is without separators, or it splits at the first one. -/
theorem split_separator (s : List α) :
    (∀ x ∈ s, p x = false) ∨ ∃ u d r, s = u ++ d :: r ∧ p d = true ∧ ∀ x ∈ u, p x = false := by
  cases h : s.dropWhile fun x => !p x with
  | nil =>
    refine .inl fun x hx => ?_
    simpa using List.dropWhile_eq_nil_iff.mp h x hx
  | cons d r =>
    have hd := List.head_dropWhile_not (fun x => !p x) (l := s) (by simp [h])
    refine .inr ⟨s.takeWhile fun x => !p x, d, r, ?_, by simpa [h] using hd, fun x hx => ?_⟩
    · rw [← h, List.takeWhile_append_dropWhile]
    · simpa using List.mem_takeWhile_imp hx

/-- A token as long as the input is the input. -/
theorem eq_of_mem_of_length_le {s t : List α} (h : t ∈ tokens p s) (hlen : s.length ≤ t.length) :
    t = s := by
  rcases split_separator (p := p) s with hall | ⟨u, d, r, rfl, hd, -⟩
  · have hne : s ≠ [] := by
      rintro rfl
      cases h
    rw [tokens_of_isToken ⟨hne, hall⟩] at h
    exact List.mem_singleton.mp h
  · rw [tokens_append_cons hd, List.mem_append] at h
    rw [List.length_append, List.length_cons] at hlen
    rcases h with h | h
    · have := length_le_of_mem h
      omega
    · have := length_le_of_mem h
      omega

/-- The first token of an input that begins with it. -/
theorem prefix_of_head {c : α} {s t : List α} {ts : List (List α)} (hc : p c = false)
    (h : tokens p (c :: s) = t :: ts) : t <+: c :: s := by
  rcases split_separator (p := p) (c :: s) with hall | ⟨u, d, r, hsplit, hd, hu⟩
  · rw [tokens_of_isToken ⟨List.cons_ne_nil c s, hall⟩] at h
    cases h
    exact List.prefix_rfl
  · cases u with
    | nil =>
      cases hsplit
      rw [hc] at hd
      cases hd
    | cons c' u =>
      rw [hsplit, tokens_token_cons ⟨List.cons_ne_nil c' u, hu⟩ hd] at h
      cases h
      exact hsplit ▸ List.prefix_append _ _

/-- A beginning of a list of tokens, of which the last token may be cut. -/
inductive Cut : List (List α) → List (List α) → Prop
  | nil (ts : List (List α)) : Cut [] ts
  | last {t' t : List α} (h : t' <+: t) (ts : List (List α)) : Cut [t'] (t :: ts)
  | cons (t : List α) {ts' ts : List (List α)} (h : Cut ts' ts) : Cut (t :: ts') (t :: ts)

theorem Cut.append_left (us : List (List α)) {ts' ts : List (List α)} (h : Cut ts' ts) :
    Cut (us ++ ts') (us ++ ts) := by
  induction us with
  | nil => exact h
  | cons u us ih => exact .cons u ih

theorem Cut.length_le {ts' ts : List (List α)} (h : Cut ts' ts) : ts'.length ≤ ts.length := by
  induction h with
  | nil ts => exact Nat.zero_le _
  | last _ ts => exact Nat.succ_le_succ (Nat.zero_le _)
  | cons t _ ih => exact Nat.succ_le_succ ih

/-- Only the last token may be cut. -/
theorem Cut.of_cons {t : List α} {us ts : List (List α)} (h : Cut (t :: us) ts) (hne : us ≠ []) :
    ∃ ts', ts = t :: ts' ∧ Cut us ts' := by
  cases h with
  | last => exact absurd rfl hne
  | cons _ h => exact ⟨_, rfl, h⟩

/-- The tokens of the two lists match, the last of the first list up to where it is cut. -/
theorem Cut.head {t' t : List α} {ts' ts : List (List α)} (h : Cut (t' :: ts') (t :: ts)) :
    t' <+: t := by
  cases h with
  | last h => exact h
  | cons => exact List.prefix_rfl

theorem Cut.tail {ts' ts : List (List α)} (h : Cut ts' ts) : Cut ts'.tail ts.tail := by
  cases h with
  | nil => exact .nil _
  | last => exact .nil _
  | cons _ h => exact h

theorem Cut.exists_of_mem {ts' ts : List (List α)} (h : Cut ts' ts) {t' : List α} (ht : t' ∈ ts') :
    ∃ t ∈ ts, t' <+: t := by
  induction h with
  | nil => cases ht
  | last hbegins =>
    rw [List.mem_singleton.mp ht]
    exact ⟨_, List.mem_cons_self, hbegins⟩
  | cons t _ ih =>
    rcases List.mem_cons.mp ht with rfl | ht
    · exact ⟨_, List.mem_cons_self, List.prefix_rfl⟩
    · obtain ⟨u, hu, hbegins⟩ := ih ht
      exact ⟨u, List.mem_cons_of_mem _ hu, hbegins⟩

/-- A token that is continued is a beginning of the first token. -/
theorem cut_of_isToken {t : List α} (ht : IsToken p t) (r : List α) :
    Cut (tokens p t) (tokens p (t ++ r)) := by
  rw [tokens_of_isToken ht]
  rcases split_separator (p := p) r with hall | ⟨u, d, r', rfl, hd, hu⟩
  · have htoken : IsToken p (t ++ r) := by
      refine ⟨List.append_ne_nil_of_left_ne_nil ht.1 r, fun x hx => ?_⟩
      exact (List.mem_append.mp hx).elim (ht.2 x) (hall x)
    rw [tokens_of_isToken htoken]
    exact .last (List.prefix_append t r) []
  · have htoken : IsToken p (t ++ u) := by
      refine ⟨List.append_ne_nil_of_left_ne_nil ht.1 u, fun x hx => ?_⟩
      exact (List.mem_append.mp hx).elim (ht.2 x) (hu x)
    rw [← List.append_assoc, tokens_token_cons htoken hd]
    exact .last (List.prefix_append t u) _

/-- The tokens of a beginning of an input are a beginning of its tokens, cut as the input is. -/
theorem cut_of_prefix {s w : List α} (h : s <+: w) : Cut (tokens p s) (tokens p w) := by
  obtain ⟨r, rfl⟩ := h
  induction hn : s.length using Nat.strongRecOn generalizing s with
  | ind n ih =>
    rcases split_separator (p := p) s with hall | ⟨u, d, s', rfl, hd, -⟩
    · by_cases hs : s = []
      · subst hs
        exact .nil _
      · exact cut_of_isToken ⟨hs, hall⟩ r
    · rw [List.append_assoc, List.cons_append, tokens_append_cons hd, tokens_append_cons hd]
      refine (ih s'.length ?_ rfl).append_left _
      rw [← hn, List.length_append, List.length_cons]
      omega

end Lib.Tokens
