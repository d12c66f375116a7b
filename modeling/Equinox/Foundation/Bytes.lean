import Mathlib

/-! # Byte buffers

Fixed-width little-endian numbers, and a buffer that is read and written at
offsets. A list of patches whose regions are pairwise apart reads back patch by
patch, in whatever order they were written; every region apart from all of them
reads as before.
-/

namespace Foundation

open List Nat

abbrev Bytes := List UInt8

namespace Bytes

/-! ## Numbers -/

/-- The low `width` bytes of a number, lowest first. -/
def ofNat : ℕ → ℕ → Bytes
  | 0, _ => []
  | width + 1, value => UInt8.ofNat (value % 256) :: ofNat width (value / 256)

def toNat (bytes : Bytes) : ℕ := ofDigits 256 (bytes.map UInt8.toNat)

/-- The two's complement of a number in `width` bytes. -/
def ofInt (width : ℕ) (value : ℤ) : Bytes := ofNat width (value % (256 ^ width : ℕ)).toNat

def toInt (bytes : Bytes) : ℤ := (toNat bytes : ℤ).bmod (256 ^ bytes.length)

@[simp] theorem length_ofNat (width value : ℕ) : (ofNat width value).length = width := by
  induction width generalizing value with
  | zero => rfl
  | succ width ih => simp [ofNat, ih]

@[simp] theorem length_ofInt (width : ℕ) (value : ℤ) : (ofInt width value).length = width :=
  length_ofNat _ _

theorem toNat_ofNat (width value : ℕ) : toNat (ofNat width value) = value % 256 ^ width := by
  induction width generalizing value with
  | zero => simp [ofNat, toNat, mod_one]
  | succ width ih =>
    have hr : ofDigits 256 ((ofNat width (value / 256)).map UInt8.toNat) =
        value / 256 % 256 ^ width := ih _
    have hl : (UInt8.ofNat (value % 256)).toNat = value % 256 := by
      rw [UInt8.toNat_ofNat']
      omega
    rw [toNat, ofNat, map_cons, ofDigits_cons, hr, hl, pow_succ', mod_mul]

theorem toNat_ofNat_of_lt {width value : ℕ} (h : value < 256 ^ width) :
    toNat (ofNat width value) = value := by
  rw [toNat_ofNat, mod_eq_of_lt h]

theorem ofNat_toNat (bytes : Bytes) : ofNat bytes.length (toNat bytes) = bytes := by
  induction bytes with
  | nil => rfl
  | cons b rest ih =>
    have hc : toNat (b :: rest) = b.toNat + 256 * toNat rest := ofDigits_cons
    have hb : b.toNat < 256 := b.toNat_lt
    have hl : (b.toNat + 256 * toNat rest) % 256 = b.toNat := by omega
    have hh : (b.toNat + 256 * toNat rest) / 256 = toNat rest := by omega
    rw [length_cons, ofNat, hc, hl, hh, ih, UInt8.ofNat_toNat]

theorem toNat_replicate_zero (n : ℕ) : toNat (replicate n 0) = 0 := by
  induction n with
  | zero => rfl
  | succ n ih =>
    have hc : toNat (0 :: replicate n 0) = 0 + 256 * toNat (replicate n 0) := ofDigits_cons
    rw [replicate_succ, hc, ih]

theorem toNat_append (low high : Bytes) :
    toNat (low ++ high) = toNat low + 256 ^ low.length * toNat high := by
  rw [toNat, map_append, ofDigits_append, length_map]
  rfl

theorem toInt_ofInt {width : ℕ} {value : ℤ} (hl : -((256 ^ width : ℕ) / 2 : ℤ) ≤ value)
    (hh : value < ((256 ^ width : ℕ) + 1) / 2) : toInt (ofInt width value) = value := by
  have hpos : (0 : ℤ) < (256 ^ width : ℕ) := by positivity
  have hlt : (value % (256 ^ width : ℕ)).toNat < 256 ^ width := by
    have := Int.emod_lt_of_pos value hpos
    have := Int.emod_nonneg value hpos.ne'
    omega
  have hc : (((value % (256 ^ width : ℕ)).toNat : ℕ) : ℤ) = value % (256 ^ width : ℕ) :=
    Int.toNat_of_nonneg (Int.emod_nonneg value hpos.ne')
  rw [toInt, length_ofInt, ofInt, toNat_ofNat_of_lt hlt, hc, Int.emod_bmod, Int.bmod_eq_of_le hl hh]

/-! ## Regions -/

def slice (bytes : Bytes) (offset width : ℕ) : Bytes := (bytes.drop offset).take width

def write (bytes : Bytes) (offset : ℕ) : Bytes → Bytes
  | [] => bytes
  | b :: rest => write (bytes.set offset b) (offset + 1) rest

variable {bytes data : Bytes} {offset width i : ℕ}

@[simp] theorem length_write : (write bytes offset data).length = bytes.length := by
  induction data generalizing bytes offset with
  | nil => rfl
  | cons b rest ih => rw [write, ih, length_set]

theorem getElem?_slice :
    (slice bytes offset width)[i]? = if i < width then bytes[offset + i]? else none := by
  rw [slice, getElem?_take, getElem?_drop]

theorem toNat_slice_lt (bytes : Bytes) (offset width : ℕ) :
    toNat (slice bytes offset width) < 256 ^ width := by
  have hdi : ∀ d ∈ (slice bytes offset width).map UInt8.toNat, d < 256 := by
    intro d hd
    obtain ⟨b, -, rfl⟩ := mem_map.1 hd
    exact b.toNat_lt
  have hl : ((slice bytes offset width).map UInt8.toNat).length ≤ width := by
    rw [length_map, slice, length_take]
    exact min_le_left _ _
  exact (ofDigits_lt_base_pow_length (by decide) hdi).trans_le (Nat.pow_le_pow_right (by decide) hl)

theorem length_slice (h : offset + width ≤ bytes.length) :
    (slice bytes offset width).length = width := by
  rw [slice, length_take, length_drop]
  omega

theorem slice_add (bytes : Bytes) (offset width width' : ℕ) :
    slice bytes offset (width + width') =
      slice bytes offset width ++ slice bytes (offset + width) width' := by
  rw [slice, take_add, drop_drop]
  rfl

theorem getElem?_write (h : offset + data.length ≤ bytes.length) :
    (write bytes offset data)[i]? =
      if offset ≤ i ∧ i < offset + data.length then data[i - offset]? else bytes[i]? := by
  induction data generalizing bytes offset with
  | nil =>
    rw [write, length_nil, if_neg (by omega)]
  | cons b rest ih =>
    rw [length_cons] at h ⊢
    rw [write, ih (by rw [length_set]; omega), getElem?_set]
    by_cases hi : offset + 1 ≤ i ∧ i < offset + 1 + rest.length
    · obtain ⟨k, rfl⟩ := Nat.exists_eq_add_of_le hi.1
      rw [if_pos hi, if_pos (by omega), show offset + 1 + k - offset = k + 1 by omega,
        getElem?_cons_succ, Nat.add_sub_cancel_left]
    rw [if_neg hi]
    by_cases hat : offset = i
    · subst hat
      rw [if_pos rfl, if_pos (by omega), if_pos (by omega), Nat.sub_self, getElem?_cons_zero]
    · rw [if_neg hat, if_neg (by omega)]

/-! ## Patches -/

structure Region where
  offset : ℕ
  width : ℕ

def Region.Within (r : Region) (size : ℕ) : Prop := r.offset + r.width ≤ size

instance (r : Region) (size : ℕ) : Decidable (r.Within size) := decLe _ _

def Region.Apart (r s : Region) : Prop :=
  r.offset + r.width ≤ s.offset ∨ s.offset + s.width ≤ r.offset

instance (r s : Region) : Decidable (r.Apart s) := inferInstanceAs (Decidable (_ ∨ _))

/-- Bytes to be written at an offset. -/
structure Patch where
  offset : ℕ
  data : Bytes
  deriving DecidableEq

def Patch.region (p : Patch) : Region := ⟨p.offset, p.data.length⟩

def apply (bytes : Bytes) (patches : List Patch) : Bytes :=
  patches.foldl (fun bytes p => write bytes p.offset p.data) bytes

@[simp] theorem apply_nil (bytes : Bytes) : apply bytes [] = bytes := rfl

@[simp] theorem apply_cons (bytes : Bytes) (p : Patch) (rest : List Patch) :
    apply bytes (p :: rest) = apply (write bytes p.offset p.data) rest := rfl

variable {patches : List Patch} {p : Patch}

@[simp] theorem length_apply : (apply bytes patches).length = bytes.length := by
  induction patches generalizing bytes with
  | nil => rfl
  | cons p rest ih =>
    rw [apply_cons]
    exact ih.trans length_write

theorem slice_write_of_apart (hin : p.region.Within bytes.length)
    (h : p.region.Apart ⟨offset, width⟩) :
    slice (write bytes p.offset p.data) offset width = slice bytes offset width := by
  have he : p.offset + p.data.length ≤ bytes.length := hin
  ext1 i
  rw [getElem?_slice, getElem?_slice, getElem?_write he]
  rcases h with h | h <;> simp only [Patch.region] at h <;> split <;>
    simp only [ite_eq_right_iff] <;> omega

theorem slice_write_self (hin : p.region.Within bytes.length) :
    slice (write bytes p.offset p.data) p.offset p.data.length = p.data := by
  have he : p.offset + p.data.length ≤ bytes.length := hin
  ext1 i
  rw [getElem?_slice, getElem?_write he]
  by_cases hi : i < p.data.length
  · rw [if_pos hi, if_pos (by omega), Nat.add_sub_cancel_left]
  · rw [if_neg hi, getElem?_eq_none (by omega)]

theorem slice_write (hd : data.length = width) (hin : offset + width ≤ bytes.length) :
    slice (write bytes offset data) offset width = data := by
  subst hd
  exact slice_write_self (p := ⟨offset, data⟩) hin

theorem slice_write_apart {target size : ℕ} (hd : data.length = size)
    (hin : target + size ≤ bytes.length) (h : Region.Apart ⟨target, size⟩ ⟨offset, width⟩) :
    slice (write bytes target data) offset width = slice bytes offset width := by
  subst hd
  exact slice_write_of_apart (p := ⟨target, data⟩) hin h

theorem slice_apply_of_apart (hin : ∀ r ∈ patches.map Patch.region, r.Within bytes.length)
    (h : ∀ r ∈ patches.map Patch.region, r.Apart ⟨offset, width⟩) :
    slice (apply bytes patches) offset width = slice bytes offset width := by
  induction patches generalizing bytes with
  | nil => rfl
  | cons p rest ih =>
    rw [map_cons, forall_mem_cons] at hin h
    have hr : ∀ r ∈ rest.map Patch.region, r.Within (write bytes p.offset p.data).length := by
      rw [length_write]
      exact hin.2
    rw [apply_cons]
    exact (ih hr h.2).trans (slice_write_of_apart hin.1 h.1)

theorem slice_apply_of_mem (hin : ∀ r ∈ patches.map Patch.region, r.Within bytes.length)
    (ha : (patches.map Patch.region).Pairwise fun r s => s.Apart r) (hp : p ∈ patches) :
    slice (apply bytes patches) p.offset p.data.length = p.data := by
  induction patches generalizing bytes with
  | nil => cases hp
  | cons q rest ih =>
    rw [map_cons, forall_mem_cons] at hin
    rw [map_cons, pairwise_cons] at ha
    have hr : ∀ r ∈ rest.map Patch.region, r.Within (write bytes q.offset q.data).length := by
      rw [length_write]
      exact hin.2
    rw [apply_cons]
    rcases mem_cons.1 hp with rfl | hp
    · exact (slice_apply_of_apart hr ha.1).trans (slice_write_self hin.1)
    · exact ih hr ha.2 hp

theorem getElem?_eq_of_slice {bytes' : Bytes} (h : slice bytes i 1 = slice bytes' i 1) :
    bytes[i]? = bytes'[i]? := by
  have hf : (slice bytes i 1)[0]? = (slice bytes' i 1)[0]? := by rw [h]
  simpa only [getElem?_slice, zero_lt_one, if_true, add_zero] using hf

end Bytes

end Foundation
