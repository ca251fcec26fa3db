import NetCache.HTTPUtilities

/-!
# Blobs as strings

`val_to_string` copies a blob into a local array and reads it back as a C string; `string_to_val`
copies all bytes of a string. So the way there and back loses what follows a NUL, and a blob that
leaves no room for the terminating NUL does not fit the array.
-/

namespace NetCache

theorem bytes_stringToVal {v : Str} (h : v.length < 2 ^ 32) : (stringToVal v).bytes = v := by
  show v.take (UInt32.ofNat v.length).toNat = v
  rw [UInt32.toNat_ofNat_of_lt' h, List.take_length]

/-- The bytes of a blob, read as a string, are copied back into the same blob. -/
theorem stringToVal_bytes (v : Blob) : stringToVal v.bytes = v :=
  Blob.ext (bytes_stringToVal v.length_lt)

/-- What `val_to_string` returns is the blob up to its first NUL, which fits the local array. -/
theorem valToString_eq_ok {b : Blob} {s : Str} :
    valToString b = .ok s ↔ b.size.toNat < 1024 ∧ s = cString b.bytes := by
  unfold valToString
  split
  · rename_i hfit
    rw [Except.ok.injEq]
    constructor
    · intro h
      exact ⟨by omega, h.symm⟩
    · intro h
      exact h.2.symm
  · rename_i hfit
    constructor
    · intro h
      cases h
    · intro h
      omega

/-- A blob goes through both conversions unchanged exactly if it has no NUL in it and leaves room
for one in an array of 1024 bytes. -/
theorem conversion_iff (b : Blob) :
    (∃ s, valToString b = .ok s ∧ s = b.bytes ∧ stringToVal s = b) ↔
      b.size.toNat < 1024 ∧ 0 ∉ b.bytes := by
  constructor
  · rintro ⟨s, hs, hbytes, -⟩
    obtain ⟨hfit, hcut⟩ := valToString_eq_ok.mp hs
    refine ⟨hfit, ?_⟩
    rw [← hbytes, hcut]
    exact zero_notMem_cString b.bytes
  · rintro ⟨hfit, h0⟩
    have hcut : b.bytes = cString b.bytes := (cString_of_zero_notMem h0).symm
    exact ⟨b.bytes, valToString_eq_ok.mpr ⟨hfit, hcut⟩, rfl, stringToVal_bytes b⟩

/-- The four bytes of the integer 1 come back as one byte, and a blob of 1024 bytes overruns the
local array. -/
theorem conversion_truncates :
    (valToString (Blob.ofIndex 1)).map stringToVal = .ok ⟨[1], 1, rfl⟩ ∧
      (∀ b : Blob, b.size = 1024 → valToString b = .error .bufferOverrun) ∧
      ¬ ∀ b : Blob, ∃ s, valToString b = .ok s ∧ s = b.bytes ∧ stringToVal s = b := by
  refine ⟨by decide, ?_, ?_⟩
  · intro b hb
    rw [valToString, hb]
    rfl
  · intro hall
    obtain ⟨s, hs, hbytes, -⟩ := hall (Blob.ofIndex 1)
    obtain ⟨-, hcut⟩ := valToString_eq_ok.mp hs
    rw [hbytes] at hcut
    exact absurd hcut (by decide)

end NetCache
