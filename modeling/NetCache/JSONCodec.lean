import NetCache.HTTPUtilities

/-!
# The JSON codec

`parse_string` takes the tokens of its input in pairs, key before value, and a last token without
a partner is dropped. So an object comes back from its text if its keys and values are words:
single tokens of the text.
-/

namespace NetCache.JSON

open Lib

/-- A non-empty string with none of the separators of `parse_string` and no NUL in it. -/
structure IsWord (s : Str) : Prop where
  token : Tokens.IsToken isDelimiter s
  nul : 0 ∉ s

instance : DecidablePred IsWord := fun s =>
  -- not the search over all of `UInt8`
  haveI : Decidable (∀ x ∈ s, isDelimiter x = false) := List.decidableBAll _ s
  decidable_of_iff ((s ≠ [] ∧ ∀ x ∈ s, isDelimiter x = false) ∧ 0 ∉ s)
    ⟨fun ⟨htoken, h0⟩ => ⟨htoken, h0⟩, fun ⟨htoken, h0⟩ => ⟨htoken, h0⟩⟩

/-- The tokens in pairs, later pairs over earlier ones. -/
def insertPairs : List Str → (AList fun _ : Str => Str) → AList fun _ : Str => Str
  | k :: v :: ts, m => insertPairs ts (m.insert k v)
  | _, m => m

/-- The key that the loop holds back until its value comes. -/
def pending (k : Str) : List Str := if k = [] then [] else [k]

theorem insertPairs_pending (k : Str) (m : AList fun _ : Str => Str) :
    insertPairs (pending k) m = m := by
  unfold pending
  split <;> rfl

/-- The loop of `parse_string` in terms of the pending tokens `ts`, the current token first. -/
theorem scan_run (ts : List Str) (hne : ∀ t ∈ ts, t ≠ []) {fuel : Nat} {s : Scan}
    (htoken : s.token = ts.head?) (hrest : Tokens.tokens isDelimiter s.rest = ts.tail)
    (hfuel : ts.length ≤ fuel) :
    ∃ s', Loop.run .outOfFuel Scan.more Scan.push fuel s = .ok s' ∧
      s'.kvMap = insertPairs (pending s.k ++ ts) s.kvMap := by
  induction ts generalizing fuel s with
  | nil =>
    refine ⟨s, Loop.run_done (by rw [Scan.more, htoken]; rfl) _, ?_⟩
    rw [List.append_nil, insertPairs_pending]
  | cons t ts ih =>
    obtain ⟨fuel, rfl⟩ : ∃ n, fuel = n + 1 := ⟨fuel - 1, by simp at hfuel; omega⟩
    have ht : t ≠ [] := hne t List.mem_cons_self
    have hne' : ∀ t ∈ ts, t ≠ [] := fun x hx => hne x (List.mem_cons_of_mem t hx)
    have hfuel' : ts.length ≤ fuel := by simpa using hfuel
    rw [List.head?_cons] at htoken
    rw [List.tail_cons] at hrest
    obtain ⟨r, hnext, hr⟩ := Tokens.next_eq (p := isDelimiter) s.rest
    rw [hrest] at hnext hr
    have hmore : s.more = .ok true := by rw [Scan.more, htoken]; rfl
    by_cases hk : s.k = []
    · -- a key is held back
      have hpush : s.push = .ok ⟨ts.head?, r, t, s.kvMap⟩ := by
        simp [Scan.push, htoken, useToken, hnext, hk]
      obtain ⟨s', hs', hmap⟩ := ih hne' (s := ⟨ts.head?, r, t, s.kvMap⟩) rfl hr hfuel'
      rw [Loop.run_step ⟨hmore, hpush⟩]
      refine ⟨s', hs', hmap.trans ?_⟩
      simp [pending, hk, ht]
    · -- a pair is complete
      have hpush : s.push = .ok ⟨ts.head?, r, [], s.kvMap.insert s.k t⟩ := by
        simp [Scan.push, htoken, useToken, hnext, hk]
      obtain ⟨s', hs', hmap⟩ := ih hne' (s := ⟨ts.head?, r, [], s.kvMap.insert s.k t⟩) rfl hr hfuel'
      rw [Loop.run_step ⟨hmore, hpush⟩]
      refine ⟨s', hs', hmap.trans ?_⟩
      simp [pending, hk, insertPairs]

/-- `parse_string` in terms of the tokens. -/
theorem parseString_eq (self : JSON) (s : Str) :
    self.parseString s =
      .ok ⟨insertPairs (Tokens.tokens isDelimiter (cString s)) self.kvMap⟩ := by
  obtain ⟨r, hnext, hr⟩ := Tokens.next_eq (p := isDelimiter) (cString s)
  have hne : ∀ t ∈ Tokens.tokens isDelimiter (cString s), t ≠ [] :=
    fun t ht => (Tokens.isToken_of_mem ht).1.1
  have hfuel : (Tokens.tokens isDelimiter (cString s)).length ≤ r.length + 1 := by
    have := Tokens.length_tokens_le (p := isDelimiter) r
    rw [hr, List.length_tail] at this
    omega
  obtain ⟨s', hs', hmap⟩ := scan_run (Tokens.tokens isDelimiter (cString s)) hne
    (s := ⟨(Tokens.tokens isDelimiter (cString s)).head?, r, [], self.kvMap⟩) rfl hr hfuel
  unfold parseString
  simp only [hnext, hs', ok_bind, hmap]
  rfl

/-- What `parse_string` finds are tokens, the key as well as its value. -/
theorem mem_of_lookup_insertPairs {ts : List Str} {m : AList fun _ : Str => Str} {k v : Str}
    (h : (insertPairs ts m).lookup k = some v) : m.lookup k = some v ∨ k ∈ ts ∧ v ∈ ts := by
  fun_induction insertPairs ts m with
  | case1 k' v' ts m ih =>
    rcases ih h with hm | ⟨hk', hv'⟩
    · by_cases hk : k = k'
      · subst hk
        rw [AList.lookup_insert] at hm
        cases hm
        exact .inr ⟨by simp, by simp⟩
      · rw [AList.lookup_insert_ne hk] at hm
        exact .inl hm
    · exact .inr ⟨by simp [hk'], by simp [hv']⟩
  | case2 => exact .inl h

/-- The tokens of a C string are words. -/
theorem isWord_of_mem_tokens {s t : Str} (h : t ∈ Tokens.tokens isDelimiter (cString s)) :
    IsWord t := by
  obtain ⟨htoken, hsub⟩ := Tokens.isToken_of_mem h
  refine ⟨htoken, ?_⟩
  intro h0
  exact zero_notMem_cString s (hsub h0)

/-- A value that is found is a piece of the text. -/
theorem length_of_find {s : Str} {result : JSON} {key val : Str}
    (hparse : new.parseString s = .ok result) (hfind : result.find key = some val) :
    val.length ≤ s.length := by
  rw [parseString_eq] at hparse
  cases hparse
  rcases mem_of_lookup_insertPairs hfind with hnone | ⟨-, hmem⟩
  · cases hnone
  · exact (Tokens.length_le_of_mem hmem).trans (List.takeWhile_prefix _).length_le

/-- The text of an object with one pair. -/
def pairText (k v : Str) : Str := str "\x7b " ++ (k ++ str ": " ++ v) ++ str " \x7d"

/-- The text of a new object to which one value is added, where the value fits the local array of
`val_to_string`. -/
theorem toString_add_new (key : Str) {val : Blob} (h : val.size.toNat + 1 ≤ 1024) :
    (new.add key val >>= toString) = .ok (pairText key (cString val.bytes)) := by
  simp [add, valToString, h, new, toString, pairText]

theorem zero_notMem_pairText {k v : Str} (hk : 0 ∉ k) (hv : 0 ∉ v) : 0 ∉ pairText k v := by
  simp [pairText, str, hk, hv]

theorem tokens_pairText {k v : Str} (hk : IsWord k) (hv : IsWord v) :
    Tokens.tokens isDelimiter (pairText k v) = [k, v] := by
  have htext : pairText k v = 123 :: 32 :: (k ++ 58 :: 32 :: (v ++ 32 :: 125 :: [])) := by
    simp [pairText, str]
  rw [htext, Tokens.tokens_cons rfl, Tokens.tokens_cons rfl, Tokens.tokens_token_cons hk.token rfl,
    Tokens.tokens_cons rfl, Tokens.tokens_token_cons hv.token rfl, Tokens.tokens_cons rfl,
    Tokens.tokens_nil]

/-- One pair of words comes back from its text. -/
theorem find_parse_pairText {k v : Str} (hk : IsWord k) (hv : IsWord v) :
    ∃ j, new.parseString (pairText k v) = .ok j ∧ j.find k = some v := by
  refine ⟨_, parseString_eq new (pairText k v), ?_⟩
  rw [cString_of_zero_notMem (zero_notMem_pairText hk.nul hv.nul), tokens_pairText hk hv]
  exact AList.lookup_insert _

/-! ## Objects with any number of pairs -/

/-- Keys and values in the order in which the pairs are listed. -/
def flatPairs (es : List (Sigma fun _ : Str => Str)) : List Str := es.flatMap fun kv => [kv.1, kv.2]

/-- The text after the first pair. -/
def othersText (others : List (Sigma fun _ : Str => Str)) : Str :=
  (others.flatMap fun kv => str ", " ++ kv.1 ++ str ":" ++ kv.2) ++ str " \x7d"

theorem toString_cons {j : JSON} {first : Sigma fun _ : Str => Str}
    {others : List (Sigma fun _ : Str => Str)} (h : j.kvMap.entries = first :: others) :
    j.toString = .ok (123 :: 32 :: (first.1 ++ 58 :: 32 :: (first.2 ++ othersText others))) := by
  unfold toString
  rw [h]
  simp [othersText, str]

/-- What follows a value begins with a separator. -/
theorem othersText_eq_cons (others : List (Sigma fun _ : Str => Str)) :
    ∃ d s, othersText others = d :: s ∧ isDelimiter d = true := by
  cases others with
  | nil => exact ⟨32, [125], rfl, rfl⟩
  | cons kv others => exact ⟨44, _, rfl, rfl⟩

theorem tokens_othersText {others : List (Sigma fun _ : Str => Str)}
    (h : ∀ kv ∈ others, IsWord kv.1 ∧ IsWord kv.2) :
    Tokens.tokens isDelimiter (othersText others) = flatPairs others := by
  induction others with
  | nil => rfl
  | cons kv others ih =>
    obtain ⟨hk, hv⟩ := h kv List.mem_cons_self
    have hothers := ih fun x hx => h x (List.mem_cons_of_mem kv hx)
    have htext : othersText (kv :: others) =
        44 :: 32 :: (kv.1 ++ 58 :: (kv.2 ++ othersText others)) := by
      simp [othersText, str]
    rw [htext, Tokens.tokens_cons rfl, Tokens.tokens_cons rfl,
      Tokens.tokens_token_cons hk.token rfl,
      Tokens.tokens_token_append hv.token (othersText_eq_cons others), hothers]
    rfl

theorem zero_notMem_othersText {others : List (Sigma fun _ : Str => Str)}
    (h : ∀ kv ∈ others, IsWord kv.1 ∧ IsWord kv.2) : 0 ∉ othersText others := by
  intro h0
  simp only [othersText, str, List.mem_append, List.mem_flatMap] at h0
  rcases h0 with ⟨kv, hkv, ((h0 | h0) | h0) | h0⟩ | h0
  · exact absurd h0 (by decide)
  · exact (h kv hkv).1.nul h0
  · exact absurd h0 (by decide)
  · exact (h kv hkv).2.nul h0
  · exact absurd h0 (by decide)

/-- Pairs with different keys, inserted one after the other over `m`. -/
theorem lookup_insertPairs {es : List (Sigma fun _ : Str => Str)} (hnd : es.NodupKeys)
    (m : AList fun _ : Str => Str) (k : Str) :
    (insertPairs (flatPairs es) m).lookup k = (es.dlookup k).or (m.lookup k) := by
  induction es generalizing m with
  | nil => rfl
  | cons kv es ih =>
    obtain ⟨a, b⟩ := kv
    rw [List.nodupKeys_cons] at hnd
    have hstep : insertPairs (flatPairs (⟨a, b⟩ :: es)) m =
        insertPairs (flatPairs es) (m.insert a b) := rfl
    rw [hstep, ih hnd.2]
    by_cases hk : k = a
    · subst hk
      rw [List.dlookup_cons_eq, List.dlookup_eq_none.mpr hnd.1, AList.lookup_insert]
      rfl
    · rw [List.dlookup_cons_ne _ _ hk, AList.lookup_insert_ne hk]

/-- An object whose keys and values are words comes back from its text. -/
theorem parse_toString {j : JSON} (hne : j.kvMap.entries ≠ [])
    (h : ∀ k v, j.find k = some v → IsWord k ∧ IsWord v) :
    ∃ s j', j.toString = .ok s ∧ new.parseString s = .ok j' ∧ ∀ k, j'.find k = j.find k := by
  have hwords : ∀ kv ∈ j.kvMap.entries, IsWord kv.1 ∧ IsWord kv.2 := fun kv hkv =>
    h kv.1 kv.2 (AList.mem_lookup_iff.mpr hkv)
  obtain ⟨first, others, hentries⟩ := List.exists_cons_of_ne_nil hne
  rw [hentries] at hwords
  obtain ⟨hk, hv⟩ := hwords first List.mem_cons_self
  have hothers : ∀ kv ∈ others, IsWord kv.1 ∧ IsWord kv.2 := fun x hx =>
    hwords x (List.mem_cons_of_mem first hx)
  refine ⟨_, _, toString_cons hentries, parseString_eq new _, ?_⟩
  have h0 : 0 ∉ 123 :: 32 :: (first.1 ++ 58 :: 32 :: (first.2 ++ othersText others)) := by
    simp [hk.nul, hv.nul, zero_notMem_othersText hothers]
  intro k
  rw [cString_of_zero_notMem h0, Tokens.tokens_cons rfl, Tokens.tokens_cons rfl,
    Tokens.tokens_token_cons hk.token rfl, Tokens.tokens_cons rfl,
    Tokens.tokens_token_append hv.token (othersText_eq_cons others), tokens_othersText hothers]
  have hflat : first.1 :: first.2 :: flatPairs others = flatPairs j.kvMap.entries := by
    rw [hentries]
    rfl
  rw [hflat]
  show (insertPairs (flatPairs j.kvMap.entries) ∅).lookup k = j.kvMap.lookup k
  rw [lookup_insertPairs j.kvMap.nodupKeys, AList.lookup_empty, Option.or_none]
  rfl

/-- An object that is not empty, in whatever order its pairs are listed, comes back from its text
as the same map exactly if all keys and values are words. -/
theorem roundTrip_iff {j : JSON} (hne : j.kvMap.entries ≠ []) :
    (∃ s j', j.toString = .ok s ∧ new.parseString s = .ok j' ∧ ∀ k, j'.find k = j.find k) ↔
      ∀ k v, j.find k = some v → IsWord k ∧ IsWord v := by
  constructor
  · rintro ⟨s, j', -, hparse, hsame⟩ k v hfind
    rw [parseString_eq] at hparse
    cases hparse
    rw [← hsame k] at hfind
    rcases mem_of_lookup_insertPairs hfind with hnone | ⟨hk, hv⟩
    · cases hnone
    · exact ⟨isWord_of_mem_tokens hk, isWord_of_mem_tokens hv⟩
  · exact parse_toString hne

/-- An object with two pairs. -/
theorem roundTrip_iff_two :
    let j : JSON := ⟨((∅ : AList fun _ : Str => Str).insert (str "b") (str "2/")).insert
      (str "a") (str "1")⟩
    ∃ s j', j.toString = .ok s ∧ new.parseString s = .ok j' ∧ ∀ k, j'.find k = j.find k := by
  refine (roundTrip_iff (by decide)).mpr ?_
  intro k v hfind
  have hmem : (⟨k, v⟩ : Sigma fun _ : Str => Str) ∈
      [⟨str "a", str "1"⟩, ⟨str "b", str "2/"⟩] := AList.mem_lookup_iff.mp hfind
  rcases List.mem_cons.mp hmem with h | h
  · cases h
    decide
  · cases List.mem_singleton.mp h
    decide

/-! ## Objects that were parsed -/

/-- Later pairs replace values, but no key is lost. -/
theorem mem_insertPairs {ts : List Str} {m : AList fun _ : Str => Str} {k : Str} (h : k ∈ m) :
    k ∈ insertPairs ts m := by
  fun_induction insertPairs ts m with
  | case1 k' v' ts m ih => exact ih ((AList.mem_insert m).mpr (.inr h))
  | case2 => exact h

/-- An object has a pair as soon as there are two tokens. -/
theorem entries_insertPairs {ts : List Str} :
    (insertPairs ts ∅).entries ≠ [] ↔ 2 ≤ ts.length := by
  match ts with
  | [] => simp [insertPairs]
  | [_] => simp [insertPairs]
  | k :: v :: ts =>
    have hk : k ∈ insertPairs ts ((∅ : AList fun _ : Str => Str).insert k v) :=
      mem_insertPairs ((AList.mem_insert _).mpr (.inl rfl))
    constructor
    · intro _
      simp
    · intro _ hnil
      rw [AList.mem_keys, AList.keys] at hk
      rw [insertPairs] at hnil
      rw [hnil] at hk
      cases hk

/-- Whatever is parsed: the object has a text exactly if two tokens were found, and then, in
whatever order its pairs are listed, it comes back from its text. -/
theorem reparse (s : Str) :
    ∃ j, new.parseString s = .ok j ∧ ∀ j' : JSON, j'.kvMap.entries.Perm j.kvMap.entries →
      ((∃ t, j'.toString = .ok t) ↔ 2 ≤ (Tokens.tokens isDelimiter (cString s)).length) ∧
      ∀ t, j'.toString = .ok t →
        ∃ j'', new.parseString t = .ok j'' ∧ ∀ k, j''.find k = j.find k := by
  refine ⟨_, parseString_eq new s, ?_⟩
  intro j' hperm
  have hfind : ∀ k, j'.find k = (insertPairs (Tokens.tokens isDelimiter (cString s)) ∅).lookup k :=
    fun k => AList.perm_lookup hperm
  have hentries : j'.kvMap.entries ≠ [] ↔ 2 ≤ (Tokens.tokens isDelimiter (cString s)).length := by
    rw [← entries_insertPairs]
    exact not_congr ⟨fun h => (h ▸ hperm).nil_eq.symm, fun h => (h ▸ hperm).eq_nil⟩
  constructor
  · rw [← hentries, toString]
    cases j'.kvMap.entries <;> simp
  · intro t ht
    have hne : j'.kvMap.entries ≠ [] := by
      intro hnil
      rw [toString, hnil] at ht
      cases ht
    obtain ⟨t', j'', ht', hparse, hsame⟩ := parse_toString hne (by
      intro k v hkv
      rw [hfind] at hkv
      rcases mem_of_lookup_insertPairs hkv with hnone | ⟨hk, hv⟩
      · cases hnone
      · exact ⟨isWord_of_mem_tokens hk, isWord_of_mem_tokens hv⟩)
    cases ht.symm.trans ht'
    exact ⟨j'', hparse, fun k => (hsame k).trans (hfind k)⟩

/-! ## What is found in a text -/

/-- The first token is no value. -/
theorem value_mem_tail {ts : List Str} {m : AList fun _ : Str => Str} {k v : Str}
    (h : (insertPairs ts m).lookup k = some v) : m.lookup k = some v ∨ v ∈ ts.tail := by
  fun_induction insertPairs ts m with
  | case1 k' v' ts m ih =>
    rcases ih h with hm | hv
    · by_cases hk : k = k'
      · subst hk
        rw [AList.lookup_insert] at hm
        cases hm
        exact .inr List.mem_cons_self
      · rw [AList.lookup_insert_ne hk] at hm
        exact .inl hm
    · exact .inr (List.mem_cons_of_mem v' (List.mem_of_mem_tail hv))
  | case2 => exact .inl h

/-- The tokens of a pair of which only the key is known to be one token. -/
theorem tokens_pairText_token {k : Str} (hk : Tokens.IsToken isDelimiter k) (v : Str) :
    Tokens.tokens isDelimiter (pairText k v) = k :: Tokens.tokens isDelimiter v := by
  have htext : pairText k v = 123 :: 32 :: (k ++ 58 :: 32 :: (v ++ 32 :: [125])) := by
    simp [pairText, str]
  have hend : Tokens.tokens isDelimiter [125] = [] := by decide
  rw [htext, Tokens.tokens_cons rfl, Tokens.tokens_cons rfl, Tokens.tokens_token_cons hk rfl,
    Tokens.tokens_cons rfl, Tokens.tokens_append_cons rfl, hend, List.append_nil]

/-- What is found in a new object is a token of the text, and not the first one. -/
theorem mem_tokens_of_find {body : Str} {j : JSON} {k v : Str}
    (hparse : new.parseString body = .ok j) (hfind : j.find k = some v) :
    k ∈ Tokens.tokens isDelimiter (cString body) ∧
      v ∈ (Tokens.tokens isDelimiter (cString body)).tail := by
  rw [parseString_eq] at hparse
  cases hparse
  constructor
  · rcases mem_of_lookup_insertPairs hfind with hnone | ⟨hk, -⟩
    · cases hnone
    · exact hk
  · rcases value_mem_tail hfind with hnone | hv
    · cases hnone
    · exact hv

/-- What the client finds under a key in a beginning of the text of a pair begins a token of the
value. -/
theorem begins_token {k v : Str} (hk : IsWord k) (h0 : 0 ∉ v) {body : Str}
    (hbody : body <+: pairText k v) {j : JSON} (hparse : new.parseString body = .ok j) {v' : Str}
    (hfind : j.find k = some v') : ∃ t ∈ Tokens.tokens isDelimiter v, v' <+: t := by
  have hzero : 0 ∉ body := fun hmem => zero_notMem_pairText hk.nul h0 (hbody.subset hmem)
  obtain ⟨-, hval⟩ := mem_tokens_of_find hparse hfind
  rw [cString_of_zero_notMem hzero] at hval
  have hcut := (Tokens.cut_of_prefix (p := isDelimiter) hbody).tail
  rw [tokens_pairText_token hk.token] at hcut
  exact hcut.exists_of_mem hval

end NetCache.JSON
