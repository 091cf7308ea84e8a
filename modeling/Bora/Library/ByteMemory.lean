import Mathlib.Data.List.Basic
import Mathlib.Tactic.Ring

/-! Byte-addressed memory as lists: little-endian machine words, byte-order
reversal, checked block copies, and reads of a copied-into region. -/
namespace ByteMemory

abbrev Bytes := List UInt8

/-- The byte at offset `i`; offsets past the end read as zero. -/
def byteAt (m : Bytes) (i : ℕ) : UInt8 := m.getD i 0

/-- The image of `x` in `w` bytes, least significant byte first. -/
def leBytes : ℕ → ℕ → Bytes
  | 0, _ => []
  | w+1, x => UInt8.ofNat (x % 256) :: leBytes w (x / 256)

def leValue : Bytes → ℕ
  | [] => 0
  | b::bs => b.toNat + 256 * leValue bs

@[simp] theorem leBytes_length (w x : ℕ) : (leBytes w x).length = w := by
  induction w generalizing x <;> simp_all [leBytes]

theorem leValue_lt (bs : Bytes) : leValue bs < 256 ^ bs.length := by
  induction bs with
  | nil => simp [leValue]
  | cons b bs ih =>
    have hb := b.toNat_lt
    simp only [leValue, List.length_cons, pow_succ]
    omega

theorem leValue_leBytes (w x : ℕ) (hx : x < 256 ^ w) : leValue (leBytes w x) = x := by
  induction w generalizing x with
  | zero => simp only [pow_zero] at hx; simp [leBytes, leValue]; omega
  | succ w ih =>
    have hq : x / 256 < 256 ^ w := by
      rw [pow_succ] at hx
      omega
    simp only [leBytes, leValue, ih _ hq, UInt8.toNat_ofNat']
    omega

theorem leBytes_leValue (bs : Bytes) : leBytes bs.length (leValue bs) = bs := by
  induction bs with
  | nil => rfl
  | cons b bs ih =>
    have hb := b.toNat_lt
    have hm : (b.toNat + 256 * leValue bs) % 256 = b.toNat := by omega
    have hd : (b.toNat + 256 * leValue bs) / 256 = leValue bs := by omega
    simp only [List.length_cons, leValue, leBytes, hm, hd, ih, UInt8.ofNat_toNat]

/-- Reverse the `w` bytes of a word, as the host-to-network conversions do. -/
def swapBytes (w x : ℕ) : ℕ := leValue (leBytes w x).reverse

theorem swapBytes_lt (w x : ℕ) : swapBytes w x < 256 ^ w := by
  simpa [swapBytes] using leValue_lt (leBytes w x).reverse

theorem leBytes_swapBytes (w x : ℕ) : leBytes w (swapBytes w x) = (leBytes w x).reverse := by
  simpa [swapBytes] using leBytes_leValue (leBytes w x).reverse

theorem swapBytes_swapBytes (w x : ℕ) (hx : x < 256 ^ w) : swapBytes w (swapBytes w x) = x := by
  have hr : swapBytes w (swapBytes w x) = leValue (leBytes w x) := by
    rw [swapBytes, leBytes_swapBytes, List.reverse_reverse]
  rw [hr, leValue_leBytes w x hx]

/-- `len` bytes from offset `off`. -/
def slice (m : Bytes) (off len : ℕ) : Bytes := (m.drop off).take len

@[simp] theorem slice_length (m : Bytes) (off len : ℕ) :
    (slice m off len).length = min len (m.length - off) := by
  simp [slice]

theorem slice_getElem? (m : Bytes) (off len i : ℕ) :
    (slice m off len)[i]? = if i < len then m[off+i]? else none := by
  simp [slice, List.getElem?_take]

theorem slice_append_left (m rest : Bytes) (off len : ℕ) (h : off + len ≤ m.length) :
    slice (m ++ rest) off len = slice m off len := by
  apply List.ext_getElem?
  intro i
  rw [slice_getElem?, slice_getElem?]
  split
  · rw [List.getElem?_append_left (by omega)]
  · rfl

theorem byteAt_take {m : Bytes} {n i : ℕ} (h : i < n) : byteAt (m.take n) i = byteAt m i := by
  simp [byteAt, List.getD_eq_getElem?_getD, List.getElem?_take_of_lt h]

theorem slice_take {m : Bytes} {n off len : ℕ} (h : off + len ≤ n) :
    slice (m.take n) off len = slice m off len := by
  apply List.ext_getElem?
  intro i
  rw [slice_getElem?, slice_getElem?]
  by_cases hi : i < len
  · simp only [hi, if_true]
    rw [List.getElem?_take_of_lt (by omega)]
  · simp only [hi, if_false]

theorem slice_append_right (m rest : Bytes) (off len : ℕ) (h : m.length ≤ off) :
    slice (m ++ rest) off len = slice rest (off - m.length) len := by
  rw [slice, slice, List.drop_append, List.drop_eq_nil_of_le h, List.nil_append]

theorem slice_zero (m rest : Bytes) : slice (m ++ rest) 0 m.length = m := by simp [slice]

theorem slice_append_slice (m : Bytes) (off a b : ℕ) :
    slice m off a ++ slice m (off + a) b = slice m off (a + b) := by
  rw [slice, slice, slice, List.take_add, List.drop_drop]

/-- `len` bytes from offset `off`, always `len` of them: past the end zeros are read. -/
def readBytes (m : Bytes) (off len : ℕ) : Bytes :=
  (List.range len).map (fun i => byteAt m (off + i))

@[simp] theorem readBytes_length (m : Bytes) (off len : ℕ) :
    (readBytes m off len).length = len := by simp [readBytes]

theorem readBytes_eq_slice (m : Bytes) (off len : ℕ) (h : off + len ≤ m.length) :
    readBytes m off len = slice m off len := by
  apply List.ext_getElem?
  intro i
  rw [slice_getElem?]
  by_cases hi : i < len
  · have hm : off + i < m.length := by omega
    simp [readBytes, byteAt, hi, hm]
  · simp [readBytes, hi]

def store16 (x : UInt16) : Bytes := leBytes 2 x.toNat
def store32 (x : UInt32) : Bytes := leBytes 4 x.toNat

def load16 (m : Bytes) (off : ℕ) : UInt16 := UInt16.ofNat (leValue (slice m off 2))
def load32 (m : Bytes) (off : ℕ) : UInt32 := UInt32.ofNat (leValue (slice m off 4))

def htons (x : UInt16) : UInt16 := UInt16.ofNat (swapBytes 2 x.toNat)
def htonl (x : UInt32) : UInt32 := UInt32.ofNat (swapBytes 4 x.toNat)
def ntohs (x : UInt16) : UInt16 := htons x
def ntohl (x : UInt32) : UInt32 := htonl x

@[simp] theorem store16_length (x : UInt16) : (store16 x).length = 2 := by simp [store16]
@[simp] theorem store32_length (x : UInt32) : (store32 x).length = 4 := by simp [store32]

theorem load16_of_slice {m : Bytes} {off : ℕ} {x : UInt16} (h : slice m off 2 = store16 x) :
    load16 m off = x := by
  have hx := x.toNat_lt
  rw [load16, h, store16, leValue_leBytes _ _ (by simpa using hx), UInt16.ofNat_toNat]

theorem load32_of_slice {m : Bytes} {off : ℕ} {x : UInt32} (h : slice m off 4 = store32 x) :
    load32 m off = x := by
  have hx := x.toNat_lt
  rw [load32, h, store32, leValue_leBytes _ _ (by simpa using hx), UInt32.ofNat_toNat]

@[simp] theorem load16_store16 (x : UInt16) (rest : Bytes) : load16 (store16 x ++ rest) 0 = x :=
  load16_of_slice (by simpa using slice_zero (store16 x) rest)

@[simp] theorem load32_store32 (x : UInt32) (rest : Bytes) : load32 (store32 x ++ rest) 0 = x :=
  load32_of_slice (by simpa using slice_zero (store32 x) rest)

theorem load16_append (m rest : Bytes) (off : ℕ) (h : m.length ≤ off) :
    load16 (m ++ rest) off = load16 rest (off - m.length) := by
  rw [load16, load16, slice_append_right m rest off 2 h]

theorem load32_append (m rest : Bytes) (off : ℕ) (h : m.length ≤ off) :
    load32 (m ++ rest) off = load32 rest (off - m.length) := by
  rw [load32, load32, slice_append_right m rest off 4 h]

theorem load16_cons (b : UInt8) (m : Bytes) (off : ℕ) (h : 0 < off) :
    load16 (b :: m) off = load16 m (off - 1) := load16_append [b] m off h

theorem load32_cons (b : UInt8) (m : Bytes) (off : ℕ) (h : 0 < off) :
    load32 (b :: m) off = load32 m (off - 1) := load32_append [b] m off h

theorem store16_load16 (m : Bytes) (off : ℕ) (h : off + 2 ≤ m.length) :
    store16 (load16 m off) = slice m off 2 := by
  have hl : (slice m off 2).length = 2 := by
    rw [slice_length]
    omega
  have hv := leValue_lt (slice m off 2)
  rw [hl] at hv
  rw [store16, load16, UInt16.toNat_ofNat', Nat.mod_eq_of_lt (by simpa using hv)]
  simpa only [hl] using leBytes_leValue (slice m off 2)

theorem store32_load32 (m : Bytes) (off : ℕ) (h : off + 4 ≤ m.length) :
    store32 (load32 m off) = slice m off 4 := by
  have hl : (slice m off 4).length = 4 := by
    rw [slice_length]
    omega
  have hv := leValue_lt (slice m off 4)
  rw [hl] at hv
  rw [store32, load32, UInt32.toNat_ofNat', Nat.mod_eq_of_lt (by simpa using hv)]
  simpa only [hl] using leBytes_leValue (slice m off 4)

@[simp] theorem htons_htons (x : UInt16) : htons (htons x) = x := by
  have hx := x.toNat_lt
  have hs := swapBytes_lt 2 x.toNat
  have hr := swapBytes_swapBytes 2 x.toNat (by simpa using hx)
  rw [htons, htons, UInt16.toNat_ofNat', Nat.mod_eq_of_lt (by simpa using hs), hr,
    UInt16.ofNat_toNat]

@[simp] theorem htonl_htonl (x : UInt32) : htonl (htonl x) = x := by
  have hx := x.toNat_lt
  have hs := swapBytes_lt 4 x.toNat
  have hr := swapBytes_swapBytes 4 x.toNat (by simpa using hx)
  rw [htonl, htonl, UInt32.toNat_ofNat', Nat.mod_eq_of_lt (by simpa using hs), hr,
    UInt32.ofNat_toNat]

@[simp] theorem ntohs_htons (x : UInt16) : ntohs (htons x) = x := htons_htons x
@[simp] theorem ntohl_htonl (x : UInt32) : ntohl (htonl x) = x := htonl_htonl x

@[simp] theorem htons_ntohs (x : UInt16) : htons (ntohs x) = x := htons_htons x
@[simp] theorem htonl_ntohl (x : UInt32) : htonl (ntohl x) = x := htonl_htonl x

theorem store16_htons (x : UInt16) :
    store16 (htons x) = [UInt8.ofNat (x.toNat / 256), UInt8.ofNat (x.toNat % 256)] := by
  have hx := x.toNat_lt
  have hs := swapBytes_lt 2 x.toNat
  rw [store16, htons, UInt16.toNat_ofNat', Nat.mod_eq_of_lt (by simpa using hs),
    leBytes_swapBytes]
  have hq : x.toNat / 256 % 256 = x.toNat / 256 := by omega
  simp [leBytes, hq]

/-- Copy `src` over the bytes of `m` from offset `off`. -/
def memcpy (m : Bytes) (off : ℕ) (src : Bytes) : Bytes :=
  m.take off ++ src ++ m.drop (off + src.length)

theorem memcpy_length (m : Bytes) (off : ℕ) (src : Bytes) (h : off + src.length ≤ m.length) :
    (memcpy m off src).length = m.length := by
  simp only [memcpy, List.length_append, List.length_take, List.length_drop]
  omega

theorem memcpy_getElem? (m : Bytes) (off : ℕ) (src : Bytes) (h : off + src.length ≤ m.length)
    (i : ℕ) :
    (memcpy m off src)[i]? =
      if off ≤ i ∧ i < off + src.length then src[i-off]? else m[i]? := by
  have ht : (m.take off).length = off := by simp; omega
  rw [memcpy, List.append_assoc, List.getElem?_append, ht]
  split
  · rename_i hi
    rw [if_neg (by omega), List.getElem?_take_of_lt hi]
  · rename_i hi
    rw [List.getElem?_append]
    split
    · rw [if_pos (by omega)]
    · rw [if_neg (by omega), List.getElem?_drop]
      congr 1
      omega

theorem slice_memcpy_same (m : Bytes) (off : ℕ) (src : Bytes)
    (h : off + src.length ≤ m.length) : slice (memcpy m off src) off src.length = src := by
  apply List.ext_getElem?
  intro i
  rw [slice_getElem?]
  by_cases hi : i < src.length
  · rw [if_pos hi, memcpy_getElem? m off src h, if_pos (by omega), Nat.add_sub_cancel_left]
  · rw [if_neg hi, List.getElem?_eq_none (by omega)]

theorem slice_memcpy_disjoint (m : Bytes) (off : ℕ) (src : Bytes) (off' len : ℕ)
    (h : off + src.length ≤ m.length) (hd : off' + len ≤ off ∨ off + src.length ≤ off') :
    slice (memcpy m off src) off' len = slice m off' len := by
  apply List.ext_getElem?
  intro i
  rw [slice_getElem?, slice_getElem?]
  by_cases hi : i < len
  · rw [if_pos hi, if_pos hi, memcpy_getElem? m off src h, if_neg (by omega)]
  · rw [if_neg hi, if_neg hi]

/-- A buffer that agrees with `xs` on each of its pieces of `k` bytes begins with `xs`. -/
theorem take_eq_of_slices {k : ℕ} (hk : 0 < k) (xs ys : Bytes)
    (h : ∀ i, k * i < xs.length →
      slice ys (k * i) (min k (xs.length - k * i)) = slice xs (k * i) (min k (xs.length - k * i))) :
    ys.take xs.length = xs := by
  apply List.ext_getElem?
  intro n
  rw [List.getElem?_take]
  by_cases hn : n < xs.length
  · have hdiv := Nat.div_add_mod n k
    have hmod := Nat.mod_lt n hk
    have hpiece := congrArg (fun zs => zs[n % k]?) (h (n / k) (by omega))
    simp only [slice_getElem?, hdiv] at hpiece
    rw [if_pos (by omega), if_pos (by omega)] at hpiece
    rw [if_pos hn, hpiece]
  · rw [if_neg hn, List.getElem?_eq_none (by omega)]

section Alike

variable {a b : Bytes} {n : ℕ}

theorem byteAt_of_take (h : a.take n = b.take n) {i : ℕ} (hi : i < n) :
    byteAt a i = byteAt b i := by
  rw [← byteAt_take hi, h, byteAt_take hi]

theorem slice_of_take (h : a.take n = b.take n) {off len : ℕ} (hl : off + len ≤ n) :
    slice a off len = slice b off len := by
  rw [← slice_take hl, h, slice_take hl]

theorem load16_of_take (h : a.take n = b.take n) {off : ℕ} (hl : off + 2 ≤ n) :
    load16 a off = load16 b off := by
  rw [load16, load16, slice_of_take h hl]

theorem load32_of_take (h : a.take n = b.take n) {off : ℕ} (hl : off + 4 ≤ n) :
    load32 a off = load32 b off := by
  rw [load32, load32, slice_of_take h hl]

theorem readBytes_of_take (h : a.take n = b.take n) {off len : ℕ} (hl : off + len ≤ n) :
    readBytes a off len = readBytes b off len := by
  refine List.map_congr_left fun i hi => ?_
  have hi := List.mem_range.mp hi
  exact byteAt_of_take h (by omega)

end Alike

/-- `size_t` subtraction: it wraps modulo the word when the result would be negative. -/
def subSize (a b : ℕ) : ℕ := if b ≤ a then a - b else 2 ^ 64 + a - b

@[simp] theorem subSize_of_le {a b : ℕ} (h : b ≤ a) : subSize a b = a - b := by
  simp [subSize, h]

end ByteMemory
