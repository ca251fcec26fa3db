import NetCache.HTTPUtilities

/-!
# The message codecs

What the two message parsers compute, read off the list of the non-empty lines of their input:
the fixed lines, then header lines up to the first line that starts with a space, then the body.
A message comes back from its own encoding exactly if its fields are lines, and every message
that a parser builds is of that kind.
-/

namespace NetCache

open Lib

/-- A non-empty line: neither a newline nor a NUL in it. -/
structure IsLine (s : Str) : Prop where
  ne_nil : s ≠ []
  newline : 10 ∉ s
  nul : 0 ∉ s

instance : DecidablePred IsLine := fun s =>
  decidable_of_iff (s ≠ [] ∧ 10 ∉ s ∧ 0 ∉ s)
    ⟨fun ⟨hne, h10, h0⟩ => ⟨hne, h10, h0⟩, fun ⟨hne, h10, h0⟩ => ⟨hne, h10, h0⟩⟩

/-- A line that the header loops take: it does not begin with a space. -/
structure IsHeaderLine (s : Str) : Prop extends IsLine s where
  space : s.head? ≠ some 32

/-- The non-empty lines of the C string that stands in memory. -/
def messageLines (mem : Str) : List Str := Tokens.tokens isNewline (cString mem)

theorem isLine_of_mem_messageLines {mem line : Str} (h : line ∈ messageLines mem) :
    IsLine line := by
  obtain ⟨htok, hsub⟩ := Tokens.isToken_of_mem h
  refine ⟨htok.1, ?_, ?_⟩
  · intro hnl
    have := htok.2 10 hnl
    simp [isNewline] at this
  · intro h0
    exact zero_notMem_cString mem (hsub h0)

theorem IsLine.isToken {s : Str} (h : IsLine s) : Tokens.IsToken isNewline s := by
  refine ⟨h.ne_nil, ?_⟩
  intro x hx
  have : x ≠ 10 := fun h10 => h.newline (h10 ▸ hx)
  simpa [isNewline] using this

/-- On a line, the test of the header loop is whether it begins with a space. -/
theorem IsLine.isHeader_iff {s : Str} (h : IsLine s) :
    HeaderScan.isHeader s = true ↔ s.head? ≠ some 32 := by
  cases s with
  | nil => exact absurd rfl h.ne_nil
  | cons c cs =>
    have hc : c ≠ 0 := fun h0 => h.nul (h0 ▸ List.mem_cons_self)
    simp [HeaderScan.isHeader, hc]

/-- The header loop in terms of the pending lines `ts`, the current token first: it takes lines
as long as they are header lines and stops at the next one, which has to exist. -/
theorem headerScan_run (ts : List Str) {fuel : Nat} {s : HeaderScan}
    (htoken : s.token = ts.head?) (hrest : Tokens.tokens isNewline s.rest = ts.tail)
    (hfuel : ts.length ≤ fuel) :
    match ts.dropWhile HeaderScan.isHeader with
    | [] => Loop.run .outOfFuel HeaderScan.more HeaderScan.push fuel s = .error .nullToken
    | _ :: rest => ∃ s', Loop.run .outOfFuel HeaderScan.more HeaderScan.push fuel s = .ok s' ∧
        Tokens.tokens isNewline s'.rest = rest ∧
        s'.headerLines = s.headerLines ++ ts.takeWhile HeaderScan.isHeader := by
  induction ts generalizing fuel s with
  | nil =>
    have hmore : s.more = .error .nullToken := by
      rw [HeaderScan.more, htoken]
      rfl
    cases fuel <;> simp [Loop.run, hmore]
  | cons t ts ih =>
    obtain ⟨fuel, rfl⟩ : ∃ n, fuel = n + 1 := ⟨fuel - 1, by simp at hfuel; omega⟩
    rw [List.head?_cons] at htoken
    rw [List.tail_cons] at hrest
    have hmore : s.more = .ok (HeaderScan.isHeader t) := by
      rw [HeaderScan.more, htoken]
      rfl
    cases ht : HeaderScan.isHeader t with
    | false =>
      rw [List.dropWhile_cons_of_neg (by simp [ht]), List.takeWhile_cons_of_neg (by simp [ht])]
      exact ⟨s, Loop.run_done (by rw [hmore, ht]) _, hrest, by simp⟩
    | true =>
      obtain ⟨r, hnext, hr⟩ := Tokens.next_eq (p := isNewline) s.rest
      have hpush : s.push = .ok ⟨ts.head?, r, s.headerLines ++ [t]⟩ := by
        simp [HeaderScan.push, htoken, useToken, hnext, hrest]
      have hstep : Loop.Iterates HeaderScan.more HeaderScan.push s
          ⟨ts.head?, r, s.headerLines ++ [t]⟩ := ⟨by rw [hmore, ht], hpush⟩
      have hfuel' : ts.length ≤ fuel := by simpa using hfuel
      have := ih (s := ⟨ts.head?, r, s.headerLines ++ [t]⟩) rfl (by rw [hr, hrest]) hfuel'
      rw [List.dropWhile_cons_of_pos ht, List.takeWhile_cons_of_pos ht, Loop.run_step hstep]
      simpa using this

/-- What the second half of a parser makes of the remaining lines. -/
def splitHeaders (ts : List Str) : Except Fault (List Str × Str) :=
  match ts.dropWhile HeaderScan.isHeader with
  | _ :: body :: _ => .ok (ts.takeWhile HeaderScan.isHeader, body)
  | _ => .error .nullToken

theorem parseHeadersAndBody_eq (headerLines : List Str) (rest : Str) :
    parseHeadersAndBody headerLines rest =
      (splitHeaders (Tokens.tokens isNewline rest)).map fun r => (headerLines ++ r.1, r.2) := by
  obtain ⟨r, hnext, hr⟩ := Tokens.next_eq (p := isNewline) rest
  have hfuel : (Tokens.tokens isNewline rest).length ≤ r.length + 1 := by
    have := Tokens.length_tokens_le (p := isNewline) r
    rw [hr, List.length_tail] at this
    omega
  have hrun := headerScan_run (Tokens.tokens isNewline rest)
    (s := ⟨(Tokens.tokens isNewline rest).head?, r, headerLines⟩) rfl hr hfuel
  unfold parseHeadersAndBody splitHeaders
  simp only [hnext]
  split at hrun
  · rename_i hnil
    simp [hrun, hnil]
  · rename_i sp ts hcons
    obtain ⟨s', hs', htokens, hlines⟩ := hrun
    obtain ⟨r', hnext', -⟩ := Tokens.next_eq (p := isNewline) s'.rest
    rw [htokens] at hnext'
    cases ts with
    | nil => simp [hs', hnext', useToken, hcons]
    | cons body ts => simp [hs', hnext', useToken, hcons, hlines]

/-- `parse_raw_request` in terms of the non-empty lines. -/
theorem HTTPRequest.parseRawRequest_eq (self : HTTPRequest) (raw : Str) :
    self.parseRawRequest raw =
      match Tokens.tokens isNewline raw with
      | verb :: uri :: version :: ts => (splitHeaders ts).map fun r =>
          { verb, uri, version, headerLines := self.headerLines ++ r.1, body := r.2 }
      | _ => .error .nullToken := by
  obtain ⟨r₁, hn₁, ht₁⟩ := Tokens.next_eq (p := isNewline) raw
  obtain ⟨r₂, hn₂, ht₂⟩ := Tokens.next_eq (p := isNewline) r₁
  obtain ⟨r₃, hn₃, ht₃⟩ := Tokens.next_eq (p := isNewline) r₂
  unfold HTTPRequest.parseRawRequest
  simp only [hn₁, hn₂, hn₃, ht₁, ht₂]
  match hts : Tokens.tokens isNewline raw with
  | [] => rfl
  | [verb] => rfl
  | [verb, uri] => rfl
  | verb :: uri :: version :: ts =>
    simp only [hts, ht₁, ht₂, List.tail_cons] at ht₃
    simp only [parseHeadersAndBody_eq, ht₃]
    cases splitHeaders ts <;> rfl

/-- `parse_raw_response` in terms of the non-empty lines. -/
theorem HTTPResponse.parseRawResponse_eq (self : HTTPResponse) (raw : Str) :
    self.parseRawResponse raw =
      match Tokens.tokens isNewline raw with
      | version :: code :: ts => (splitHeaders ts).map fun r =>
          { version, code, headerLines := self.headerLines ++ r.1, body := r.2 }
      | _ => .error .nullToken := by
  obtain ⟨r₁, hn₁, ht₁⟩ := Tokens.next_eq (p := isNewline) raw
  obtain ⟨r₂, hn₂, ht₂⟩ := Tokens.next_eq (p := isNewline) r₁
  unfold HTTPResponse.parseRawResponse
  simp only [hn₁, hn₂, ht₁]
  match hts : Tokens.tokens isNewline raw with
  | [] => rfl
  | [version] => rfl
  | version :: code :: ts =>
    simp only [hts, ht₁, List.tail_cons] at ht₂
    simp only [parseHeadersAndBody_eq, ht₂]
    cases splitHeaders ts <;> rfl

theorem splitHeaders_ok {ts hs : List Str} {body : Str} :
    splitHeaders ts = .ok (hs, body) ↔
      ∃ sp rest, ts = hs ++ sp :: body :: rest ∧
        (∀ h ∈ hs, HeaderScan.isHeader h = true) ∧ HeaderScan.isHeader sp = false := by
  constructor
  · intro h
    unfold splitHeaders at h
    split at h
    · rename_i sp body' rest hdrop
      cases h
      have hsp := List.head_dropWhile_not HeaderScan.isHeader (l := ts) (by simp [hdrop])
      refine ⟨sp, rest, ?_, ?_, by simpa [hdrop] using hsp⟩
      · rw [← hdrop, List.takeWhile_append_dropWhile]
      · intro h hh
        exact List.mem_takeWhile_imp hh
    · cases h
  · rintro ⟨sp, rest, rfl, hhs, hsp⟩
    have hdrop : (hs ++ sp :: body :: rest).dropWhile HeaderScan.isHeader = sp :: body :: rest := by
      rw [List.dropWhile_append_of_pos hhs, List.dropWhile_cons_of_neg (by simp [hsp])]
    have htake : (hs ++ sp :: body :: rest).takeWhile HeaderScan.isHeader = hs := by
      rw [List.takeWhile_append_of_pos hhs, List.takeWhile_cons_of_neg (by simp [hsp])]
      exact List.append_nil hs
    simp [splitHeaders, hdrop, htake]

/-- Headers and a body are found exactly if a line that is not a header has a successor. -/
theorem splitHeaders_isOk (ts : List Str) :
    (∃ r, splitHeaders ts = .ok r) ↔
      ∃ i line, ts[i]? = some line ∧ HeaderScan.isHeader line = false ∧ i + 1 < ts.length := by
  induction ts with
  | nil => simp [splitHeaders]
  | cons t ts ih =>
    cases ht : HeaderScan.isHeader t with
    | true =>
      have hcons : (∃ r, splitHeaders (t :: ts) = .ok r) ↔ ∃ r, splitHeaders ts = .ok r := by
        unfold splitHeaders
        rw [List.dropWhile_cons_of_pos ht]
        split <;> simp
      rw [hcons, ih]
      constructor
      · rintro ⟨i, line, hline, hnot, hlt⟩
        exact ⟨i + 1, line, by simpa using hline, hnot, by simpa using hlt⟩
      · rintro ⟨i, line, hline, hnot, hlt⟩
        cases i with
        | zero =>
          rw [List.getElem?_cons_zero] at hline
          cases hline
          rw [ht] at hnot
          cases hnot
        | succ i => exact ⟨i, line, by simpa using hline, hnot, by simpa using hlt⟩
    | false =>
      have hdrop : (t :: ts).dropWhile HeaderScan.isHeader = t :: ts :=
        List.dropWhile_cons_of_neg (by simp [ht])
      cases ts with
      | nil => simp [splitHeaders, hdrop]
      | cons body ts =>
        constructor
        · intro _
          exact ⟨0, t, rfl, ht, by simp⟩
        · intro _
          exact ⟨((t :: body :: ts).takeWhile HeaderScan.isHeader, body),
            by simp only [splitHeaders, hdrop]⟩

/-! ## The image of the encoders -/

/-- The requests that survive their own encoding: the fields are lines, and the header lines do
not begin with a space. -/
structure HTTPRequest.Encodable (r : HTTPRequest) : Prop where
  verb : IsLine r.verb
  uri : IsLine r.uri
  version : IsLine r.version
  headerLines : ∀ h ∈ r.headerLines, IsHeaderLine h
  body : IsLine r.body

/-- The responses that survive their own encoding. -/
structure HTTPResponse.Encodable (r : HTTPResponse) : Prop where
  version : IsLine r.version
  code : IsLine r.code
  headerLines : ∀ h ∈ r.headerLines, IsHeaderLine h
  body : IsLine r.body

@[simp] theorem str_newline : str "\n" = [10] := by decide

@[simp] theorem str_space_newline : str " \n" = [32, 10] := by decide

theorem IsLine.zero_notMem_append {s t : Str} (h : IsLine s) (ht : 0 ∉ t) : 0 ∉ s ++ t := by
  rw [List.mem_append]
  intro hmem
  exact hmem.elim h.nul ht

/-- A line and its newline give one token. -/
theorem tokens_line {s : Str} (h : IsLine s) (t : Str) :
    Tokens.tokens isNewline (s ++ 10 :: t) = s :: Tokens.tokens isNewline t :=
  Tokens.tokens_token_cons h.isToken rfl t

theorem tokens_headersAndBody {headerLines : List Str} {body : Str}
    (hlines : ∀ h ∈ headerLines, IsHeaderLine h) (hbody : IsLine body) :
    Tokens.tokens isNewline (headersAndBodyToString headerLines body) =
      headerLines ++ [str " ", body] := by
  have hspace : IsLine (str " ") := by decide
  unfold headersAndBodyToString
  induction headerLines with
  | nil =>
    have hs : str " \n" ++ (body ++ str "\n") = str " " ++ 10 :: (body ++ 10 :: []) := by simp [str]
    rw [List.flatMap_nil, List.nil_append, hs, tokens_line hspace, tokens_line hbody]
    rfl
  | cons h hs ih =>
    have hh : IsHeaderLine h := hlines h List.mem_cons_self
    have hhs : ∀ h ∈ hs, IsHeaderLine h := fun x hx => hlines x (List.mem_cons_of_mem h hx)
    rw [List.flatMap_cons, str_newline]
    simp only [List.append_assoc, List.cons_append, List.nil_append]
    rw [tokens_line hh.toIsLine]
    have := ih hhs
    simp only [str_newline, List.append_assoc] at this
    rw [this]

theorem zero_notMem_headersAndBody {headerLines : List Str} {body : Str}
    (hlines : ∀ h ∈ headerLines, IsHeaderLine h) (hbody : IsLine body) :
    0 ∉ headersAndBodyToString headerLines body := by
  unfold headersAndBodyToString
  intro hmem
  simp only [str_newline, str_space_newline, List.mem_append, List.mem_flatMap, List.mem_cons,
    List.not_mem_nil, or_false] at hmem
  rcases hmem with (⟨h, hh, h0 | h0⟩ | h0 | h0) | h0 | h0
  · exact (hlines h hh).nul h0
  · cases h0
  · cases h0
  · cases h0
  · exact hbody.nul h0
  · cases h0

theorem splitHeaders_encoded {headerLines : List Str} {body : Str}
    (hlines : ∀ h ∈ headerLines, IsHeaderLine h) :
    splitHeaders (headerLines ++ [str " ", body]) = .ok (headerLines, body) :=
  splitHeaders_ok.mpr ⟨str " ", [], rfl,
    fun h hh => (hlines h hh).isHeader_iff.mpr (hlines h hh).space, by decide⟩

/-- The header lines and the body that a parser finds are lines of the input. -/
theorem lines_of_splitHeaders {mem : Str} {ts hs : List Str} {body : Str}
    (hts : ∀ t ∈ ts, t ∈ messageLines mem) (h : splitHeaders ts = .ok (hs, body)) :
    (∀ h ∈ hs, IsHeaderLine h) ∧ IsLine body := by
  obtain ⟨sp, rest, rfl, hhs, -⟩ := splitHeaders_ok.mp h
  refine ⟨?_, isLine_of_mem_messageLines (hts body (by simp))⟩
  intro h hh
  have hline : IsLine h := isLine_of_mem_messageLines (hts h (by simp [hh]))
  exact ⟨hline, hline.isHeader_iff.mp (hhs h hh)⟩

namespace HTTPRequest

theorem Encodable.zero_notMem {r : HTTPRequest} (h : r.Encodable) : 0 ∉ r.toString := by
  unfold toString
  simp only [str_newline, List.append_assoc]
  refine h.verb.zero_notMem_append ?_
  have hbody := zero_notMem_headersAndBody h.headerLines h.body
  simp [h.uri.nul, h.version.nul, hbody]

theorem parse_toString {r : HTTPRequest} (h : r.Encodable) :
    new.parseRawRequest (cString r.toString) = .ok r := by
  have htokens : Tokens.tokens isNewline r.toString =
      r.verb :: r.uri :: r.version :: (r.headerLines ++ [str " ", r.body]) := by
    unfold toString
    simp only [str_newline, List.append_assoc, List.cons_append, List.nil_append]
    rw [tokens_line h.verb, tokens_line h.uri, tokens_line h.version,
      tokens_headersAndBody h.headerLines h.body]
  rw [cString_of_zero_notMem h.zero_notMem, parseRawRequest_eq, htokens]
  simp only [splitHeaders_encoded h.headerLines]
  rfl

theorem encodable_of_parse {mem : Str} {r : HTTPRequest}
    (h : new.parseRawRequest (cString mem) = .ok r) : r.Encodable := by
  rw [parseRawRequest_eq] at h
  split at h
  · rename_i verb uri version ts htokens
    have hmem : ∀ t ∈ verb :: uri :: version :: ts, t ∈ messageLines mem := by
      intro t ht
      rw [messageLines, htokens]
      exact ht
    obtain ⟨⟨hs, body⟩, hsplit, rfl⟩ := map_eq_ok.mp h
    obtain ⟨hlines, hbody⟩ :=
      lines_of_splitHeaders (fun t ht => hmem t (by simp [ht])) hsplit
    exact ⟨isLine_of_mem_messageLines (hmem verb (by simp)),
      isLine_of_mem_messageLines (hmem uri (by simp)),
      isLine_of_mem_messageLines (hmem version (by simp)), hlines, hbody⟩
  · cases h

end HTTPRequest

namespace HTTPResponse

theorem Encodable.zero_notMem {r : HTTPResponse} (h : r.Encodable) : 0 ∉ r.toString := by
  unfold toString
  simp only [str_newline, List.append_assoc]
  refine h.version.zero_notMem_append ?_
  have hbody := zero_notMem_headersAndBody h.headerLines h.body
  simp [h.code.nul, hbody]

theorem parse_toString {r : HTTPResponse} (h : r.Encodable) :
    new.parseRawResponse (cString r.toString) = .ok r := by
  have htokens : Tokens.tokens isNewline r.toString =
      r.version :: r.code :: (r.headerLines ++ [str " ", r.body]) := by
    unfold toString
    simp only [str_newline, List.append_assoc, List.cons_append, List.nil_append]
    rw [tokens_line h.version, tokens_line h.code, tokens_headersAndBody h.headerLines h.body]
  rw [cString_of_zero_notMem h.zero_notMem, parseRawResponse_eq, htokens]
  simp only [splitHeaders_encoded h.headerLines]
  rfl

theorem encodable_of_parse {mem : Str} {r : HTTPResponse}
    (h : new.parseRawResponse (cString mem) = .ok r) : r.Encodable := by
  rw [parseRawResponse_eq] at h
  split at h
  · rename_i version code ts htokens
    have hmem : ∀ t ∈ version :: code :: ts, t ∈ messageLines mem := by
      intro t ht
      rw [messageLines, htokens]
      exact ht
    obtain ⟨⟨hs, body⟩, hsplit, rfl⟩ := map_eq_ok.mp h
    obtain ⟨hlines, hbody⟩ :=
      lines_of_splitHeaders (fun t ht => hmem t (by simp [ht])) hsplit
    exact ⟨isLine_of_mem_messageLines (hmem version (by simp)),
      isLine_of_mem_messageLines (hmem code (by simp)), hlines, hbody⟩
  · cases h

end HTTPResponse

/-- A request comes back from its own encoding, parsed into a new object, exactly if it is
encodable; every request that the parser builds is encodable and so comes back; and the same for
responses. -/
theorem message_codec :
    (∀ r : HTTPRequest,
      HTTPRequest.new.parseRawRequest (cString r.toString) = .ok r ↔ r.Encodable) ∧
    (∀ (mem : Str) (r : HTTPRequest), HTTPRequest.new.parseRawRequest (cString mem) = .ok r →
      r.Encodable ∧ HTTPRequest.new.parseRawRequest (cString r.toString) = .ok r) ∧
    (∀ r : HTTPResponse,
      HTTPResponse.new.parseRawResponse (cString r.toString) = .ok r ↔ r.Encodable) ∧
    (∀ (mem : Str) (r : HTTPResponse), HTTPResponse.new.parseRawResponse (cString mem) = .ok r →
      r.Encodable ∧ HTTPResponse.new.parseRawResponse (cString r.toString) = .ok r) := by
  refine ⟨fun r => ⟨?_, HTTPRequest.parse_toString⟩, ?_,
    fun r => ⟨?_, HTTPResponse.parse_toString⟩, ?_⟩
  · exact HTTPRequest.encodable_of_parse
  · intro mem r h
    have hr := HTTPRequest.encodable_of_parse h
    exact ⟨hr, HTTPRequest.parse_toString hr⟩
  · exact HTTPResponse.encodable_of_parse
  · intro mem r h
    have hr := HTTPResponse.encodable_of_parse h
    exact ⟨hr, HTTPResponse.parse_toString hr⟩

/-- A request with an empty line, a header line and no final newline, and what it becomes. -/
theorem message_codec_put :
    let r : HTTPRequest :=
      ⟨str "PUT", str "/key/a/b", str "HTTP v1.1", [str "Host: c"], str "d"⟩
    r.Encodable ∧ HTTPRequest.new.parseRawRequest (cString r.toString) = .ok r :=
  message_codec.2.1 (str "PUT\n\n/key/a/b\nHTTP v1.1\nHost: c\n \nd") _ (by
    rw [HTTPRequest.parseRawRequest_eq]
    rfl)

end NetCache
