import Mathlib.Data.List.TakeWhile
import Mathlib.Algebra.Order.Ring.Nat

/-!
# Strings, blobs and faults

The C++ values that the translation units share. A `std::string` is a list of bytes, a C string
is what stands in memory before the first NUL, and a `const void*` travels with the number of
bytes that may be read through it. An operation that throws, or whose behaviour C++ leaves
undefined, ends in a `Fault`.
-/

namespace NetCache

/-- `std::string`. -/
abbrev Str := List UInt8

/-- A string literal of the source, whose characters are all ASCII. -/
def str (s : String) : Str := s.toList.map fun c => UInt8.ofNat c.toNat

/-- The ways in which a call can fail to return. -/
inductive Fault where
  /-- `std::out_of_range`, thrown by `std::string::substr`. -/
  | outOfRange
  /-- A null `strtok` result used as a string. -/
  | nullToken
  /-- A write past the end of a local array. -/
  | bufferOverrun
  /-- A read past the end of an allocation. -/
  | overRead
  /-- A C string without a terminating NUL inside its array. -/
  | unterminated
  /-- An iterator whose list node has been erased. -/
  | danglingIterator
  /-- `back()` on an empty list. -/
  | emptyBack
  /-- An end iterator incremented or dereferenced. -/
  | endIterator
  /-- A loop that has not ended within the bound its model runs it with. -/
  | outOfFuel
  deriving DecidableEq, Repr

/-- A `const void*` to `size` readable bytes, together with `size` (`Cache::val_type` and
`Cache::index_type` in `cache.hh:20-21`). -/
structure Blob where
  bytes : List UInt8
  size : UInt32
  length_eq : bytes.length = size.toNat
  deriving DecidableEq

namespace Blob

@[ext] theorem ext {a b : Blob} (h : a.bytes = b.bytes) : a = b := by
  obtain ⟨x, m, hm⟩ := a
  obtain ⟨y, n, hn⟩ := b
  obtain rfl : x = y := h
  obtain rfl : m = n := UInt32.toNat_inj.mp (hm.symm.trans hn)
  rfl

theorem length_lt (b : Blob) : b.bytes.length < 2 ^ 32 := b.length_eq ▸ b.size.toNat_lt

/-- The first `size` bytes behind a pointer. -/
def read (val : List UInt8) (size : UInt32) : Except Fault Blob :=
  if h : size.toNat ≤ val.length then
    .ok ⟨val.take size.toNat, size, by rw [List.length_take]; omega⟩
  else .error .overRead

@[simp] theorem read_self (b : Blob) : read b.bytes b.size = .ok b := by
  have h : b.size.toNat ≤ b.bytes.length := Nat.le_of_eq b.length_eq.symm
  rw [read, dif_pos h]
  congr 1
  exact Blob.ext (List.take_of_length_le (Nat.le_of_eq b.length_eq))

/-- An `index_type` in memory, on a little-endian machine. -/
def ofIndex (n : UInt32) : Blob where
  bytes := [UInt8.ofNat n.toNat, UInt8.ofNat (n.toNat / 2 ^ 8), UInt8.ofNat (n.toNat / 2 ^ 16),
    UInt8.ofNat (n.toNat / 2 ^ 24)]
  size := 4
  length_eq := rfl

/-- Reading an `index_type` back through a pointer. -/
def toIndex : List UInt8 → Except Fault UInt32
  | b₀ :: b₁ :: b₂ :: b₃ :: _ => .ok (UInt32.ofNat
      (b₀.toNat + 2 ^ 8 * b₁.toNat + 2 ^ 16 * b₂.toNat + 2 ^ 24 * b₃.toNat))
  | _ => .error .overRead

theorem toIndex_ofIndex (n : UInt32) : toIndex (ofIndex n).bytes = .ok n := by
  have hn : n.toNat < 2 ^ 32 := n.toNat_lt
  have hsum : n.toNat % 2 ^ 8 + 2 ^ 8 * (n.toNat / 2 ^ 8 % 2 ^ 8) +
      2 ^ 16 * (n.toNat / 2 ^ 16 % 2 ^ 8) + 2 ^ 24 * (n.toNat / 2 ^ 24 % 2 ^ 8) = n.toNat := by
    omega
  simp only [toIndex, ofIndex, UInt8.toNat_ofNat', hsum, UInt32.ofNat_toNat]

/-- Fewer than four bytes are not read. -/
theorem four_le_of_toIndex {val : List UInt8} {n : UInt32} (h : toIndex val = .ok n) :
    4 ≤ val.length := by
  match val, h with
  | _ :: _ :: _ :: _ :: _, _ => simp

/-- What is read back determines the four bytes. -/
theorem ofIndex_of_toIndex {val : List UInt8} {n : UInt32} (hlen : val.length = 4)
    (h : toIndex val = .ok n) : (ofIndex n).bytes = val := by
  match val, hlen, h with
  | [b₀, b₁, b₂, b₃], _, h =>
    have h₀ := b₀.toNat_lt
    have h₁ := b₁.toNat_lt
    have h₂ := b₂.toNat_lt
    have h₃ := b₃.toNat_lt
    have hn : n.toNat = b₀.toNat + 2 ^ 8 * b₁.toNat + 2 ^ 16 * b₂.toNat + 2 ^ 24 * b₃.toNat := by
      rw [← Except.ok.inj h, UInt32.toNat_ofNat']
      exact Nat.mod_eq_of_lt (by omega)
    simp only [ofIndex, List.cons.injEq, ← UInt8.toNat_inj, UInt8.toNat_ofNat', and_true]
    omega

end Blob

/-- The C string at the start of a stretch of memory: the bytes before the first NUL. -/
def cString (mem : Str) : Str := mem.takeWhile (· != 0)

/-- `s.substr(pos, n)`. -/
def substr (s : Str) (pos n : Nat) : Except Fault Str :=
  if pos ≤ s.length then .ok ((s.drop pos).take n) else .error .outOfRange

/-- `s.substr(pos, std::string::npos)`. -/
def substrToEnd (s : Str) (pos : Nat) : Except Fault Str :=
  if pos ≤ s.length then .ok (s.drop pos) else .error .outOfRange

/-- `std::string::npos`, the largest `size_t`. -/
def npos : Nat := 2 ^ 64 - 1

/-- `s.find(c, pos)`: the first position from `pos` on that holds `c`, or `npos`. -/
def find (s : Str) (c : UInt8) (pos : Nat) : Nat :=
  if c ∈ s.drop pos then pos + (s.drop pos).idxOf c else npos

theorem zero_notMem_cString (mem : Str) : 0 ∉ cString mem := by
  intro h
  have := List.all_takeWhile (p := (· != (0 : UInt8))) (l := mem)
  simpa using List.all_eq_true.mp this 0 h

theorem cString_subset (mem : Str) : cString mem ⊆ mem := (List.takeWhile_prefix _).subset

theorem cString_of_zero_notMem {s : Str} (h : 0 ∉ s) : cString s = s := by
  apply List.takeWhile_eq_self_iff.mpr
  intro x hx
  have : x ≠ 0 := fun h0 => h (h0 ▸ hx)
  simpa using this

/-- A C string ends at the first NUL, whatever follows it. -/
theorem cString_append_zero (s t : Str) : cString (s ++ 0 :: t) = cString s := by
  induction s with
  | nil => rfl
  | cons c cs ih =>
    unfold cString at ih ⊢
    rw [List.cons_append, List.takeWhile_cons, List.takeWhile_cons, ih]

end NetCache
