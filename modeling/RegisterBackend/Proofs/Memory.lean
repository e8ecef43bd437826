import RegisterBackend.Proofs.Machine

/-!
Bytes in memory: what a write leaves behind and what it does not touch.
-/
namespace RegisterBackend

open BitVec List Word

theorem littleEndian_append (front back : List UInt8) : littleEndian (front ++ back)
      = littleEndian front + 256 ^ front.length * littleEndian back := by
  induction front with
  | nil => simp [littleEndian]
  | cons b rest ih =>
    simp only [List.cons_append, littleEndian, ih, List.length_cons, Nat.pow_succ]
    ring

theorem littleEndian_lt (bytes : List UInt8) : littleEndian bytes < 256 ^ bytes.length := by
  induction bytes with
  | nil => simp [littleEndian]
  | cons b rest ih =>
    have small := UInt8.toNat_lt b
    simp only [littleEndian, length_cons, Nat.pow_succ]
    omega

theorem littleEndian_take (bytes : List UInt8) (count : Nat) (fits : count ≤ bytes.length) :
    littleEndian (bytes.take count) = littleEndian bytes % 256 ^ count := by
  have split := littleEndian_append (bytes.take count) (bytes.drop count)
  have length : (bytes.take count).length = count := length_take_of_le fits
  rw [take_append_drop, length] at split
  have small := littleEndian_lt (bytes.take count)
  rw [length] at small
  rw [split, Nat.add_mul_mod_self_left, Nat.mod_eq_of_lt small]

theorem littleEndian_digits (n count : Nat) :
    littleEndian ((range count).map fun i => UInt8.ofNat (n >>> (8 * i))) = n % 256 ^ count := by
  induction count with
  | zero => simp [littleEndian, Nat.mod_one]
  | succ count ih =>
    rw [range_succ, map_append, littleEndian_append, ih]
    simp only [length_map, length_range, map_cons, map_nil, littleEndian,
      UInt8.toNat_ofNat', Nat.mul_zero, Nat.add_zero]
    rw [Nat.pow_succ 256, Nat.mod_mul, Nat.shiftRight_eq_div_pow, Nat.pow_mul]

@[simp] theorem length_wordBytes (w : Word) : (Word.bytes w).length = 8 := by
  simp [Word.bytes]

theorem littleEndian_wordBytes (w : Word) : littleEndian (Word.bytes w) = w.toNat := by
  rw [Word.bytes, littleEndian_digits]
  exact Nat.mod_eq_of_lt w.isLt

theorem ofBytes_wordBytes (w : Word) : ofBytes (Word.bytes w) = w := by
  rw [ofBytes, littleEndian_wordBytes, ofNat_toNat, setWidth_eq]

theorem littleEndian_injective {xs ys : List UInt8} (same_length : xs.length = ys.length)
    (same : littleEndian xs = littleEndian ys) : xs = ys := by
  induction xs generalizing ys with
  | nil => exact (eq_nil_of_length_eq_zero same_length.symm).symm
  | cons x xs ih =>
    cases ys with
    | nil => cases same_length
    | cons y ys =>
      have x_small := UInt8.toNat_lt x
      have y_small := UInt8.toNat_lt y
      simp only [littleEndian] at same
      have digits : x = y := UInt8.toNat_inj.mp (by omega)
      rw [digits, ih (by simpa using same_length) (by omega)]

theorem wordBytes_ofBytes {bytes : List UInt8} (eight : bytes.length = 8) :
    Word.bytes (Word.ofBytes bytes) = bytes := by
  have small := littleEndian_lt bytes
  rw [eight] at small
  refine littleEndian_injective (by simp [eight]) ?_
  rw [littleEndian_wordBytes, Word.ofBytes, BitVec.toNat_ofNat]
  exact Nat.mod_eq_of_lt small

theorem ofNat_littleEndian_take (x : BitVec 32) :
    BitVec.ofNat 32 (littleEndian ((Word.bytes (x.setWidth 64)).take 4)) = x := by
  apply eq_of_toNat_eq
  rw [littleEndian_take _ _ (by simp), littleEndian_wordBytes]
  have small := x.isLt
  simp only [toNat_setWidth, toNat_ofNat]
  omega

theorem setWidth_ofBytes_take (bytes : List UInt8) (size : Nat) (fits : size ≤ bytes.length)
    (small : size ≤ 8) :
    (ofBytes bytes).setWidth (size * 8) = (ofBytes (bytes.take size)).setWidth (size * 8) := by
  apply eq_of_toNat_eq
  have power : (256 : Nat) ^ size = 2 ^ (size * 8) := by
    rw [Nat.mul_comm, Nat.pow_mul]
  have dvd : 2 ^ (size * 8) ∣ 2 ^ 64 := Nat.pow_dvd_pow 2 (by omega)
  simp only [ofBytes, toNat_setWidth, toNat_ofNat]
  rw [littleEndian_take bytes size fits, power, Nat.mod_mod_of_dvd _ dvd,
    Nat.mod_mod_of_dvd _ dvd, Nat.mod_mod]

theorem narrow_ofBytes_take (bytes : List UInt8) (size : Nat) (signed : Bool)
    (fits : size ≤ bytes.length) (small : size ≤ 8) : narrow (ofBytes bytes) size signed
      = narrow (ofBytes (bytes.take size)) size signed := by
  simp only [narrow, setWidth_ofBytes_take bytes size fits small]

theorem narrow_ofBytes_wordBytes (w : Word) (size : Nat) (signed : Bool) (small : size ≤ 8) :
    narrow (ofBytes ((Word.bytes w).take size)) size signed = narrow w size signed := by
  rw [← narrow_ofBytes_take (Word.bytes w) size signed (by simpa using small) small,
    ofBytes_wordBytes]

theorem narrow_word (w : Word) (signed : Bool) : narrow w 8 signed = w := by
  cases signed <;> simp [narrow]

theorem narrow_narrow_of_le (w : Word) {small large : Nat} (le : small ≤ large) (signed : Bool) :
    narrow (narrow w small signed) large signed = narrow w small signed := by
  apply eq_of_getLsbD_eq
  intro i inside
  cases signed
  · simp only [narrow, Bool.false_eq_true, ↓reduceIte, getLsbD_setWidth, inside,
      decide_true, Bool.true_and]
    grind
  · simp only [narrow, ↓reduceIte, getLsbD_signExtend, getLsbD_setWidth, inside,
      decide_true, Bool.true_and, msb_eq_getLsbD_last]
    -- Beyond the larger size both words repeat the sign of the smaller one.
    grind

namespace Memory

@[simp] theorem length_bytes (m : Memory) (address : Word) (count : Nat) :
    (m.bytes address count).length = count := by simp [bytes]

theorem bytes_take (m : Memory) (address : Word) {count total : Nat} (le : count ≤ total) :
    (m.bytes address total).take count = m.bytes address count := by
  simp [bytes, ← map_take, take_range, Nat.min_eq_left le]

theorem bytes_congr {m m' : Memory} {address : Word} {count : Nat}
    (same : ∀ i < count, m' (address + BitVec.ofNat 64 i) = m (address + BitVec.ofNat 64 i)) :
    m'.bytes address count = m.bytes address count := by
  simp only [bytes]
  exact map_congr_left fun i hi => same i (mem_range.mp hi)

theorem write_of_apart (m : Memory) {address a : Word} {content : List UInt8}
    (apart : ∀ i < content.length, a ≠ address + BitVec.ofNat 64 i) :
    m.write address content a = m a := by
  have far : content.length ≤ (a - address).toNat := by
    by_contra near
    refine apart (a - address).toNat (by omega) ?_
    rw [ofNat_toNat, setWidth_eq, add_comm, sub_add_cancel]
  exact getD_eq_default _ _ far

theorem write_at (m : Memory) (address : Word) (content : List UInt8) {i : Nat}
    (inside : i < content.length) (small : content.length ≤ 2 ^ 64) :
    m.write address content (address + BitVec.ofNat 64 i) = content[i] := by
  have back : (address + BitVec.ofNat 64 i - address).toNat = i := by
    rw [add_comm, add_sub_cancel, toNat_ofNat]
    exact Nat.mod_eq_of_lt (by omega)
  rw [write, back]
  exact getD_eq_getElem _ _ inside

theorem bytes_write (m : Memory) (address : Word) (content : List UInt8)
    (small : content.length ≤ 2 ^ 64) :
    (m.write address content).bytes address content.length = content := by
  apply ext_getElem
  · simp
  · intro i _ inside
    simp only [bytes, getElem_map, getElem_range]
    exact m.write_at address content inside small

end Memory

theorem narrow_word_eq (m : Memory) (address : Word) (size : Nat) (signed : Bool)
    (small : size ≤ 8) :
    narrow (m.word address) size signed = narrow (ofBytes (m.bytes address size)) size signed := by
  rw [Memory.word, narrow_ofBytes_take _ size signed (by simpa using small) small,
    m.bytes_take address small]

end RegisterBackend
