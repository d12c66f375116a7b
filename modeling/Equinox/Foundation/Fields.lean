import Equinox.Foundation.Bytes

/-! # Consecutive fields

A buffer that consists of given fields, one after the other: what a reader finds
at the running offsets is what a writer put there. Numbers are fields of their
width.
-/

namespace Foundation

open List

namespace Bytes

variable {bytes data : Bytes} {offset width n : ℕ} {fields : List Bytes}

def At (bytes : Bytes) (offset : ℕ) (data : Bytes) : Prop :=
  offset + data.length ≤ bytes.length ∧ slice bytes offset data.length = data

/-- The `width` bytes at an offset, if there are as many. -/
def get (bytes : Bytes) (offset width : ℕ) : Option Bytes :=
  if offset + width ≤ bytes.length then some (slice bytes offset width) else none

theorem get_eq_some : get bytes offset width = some data ↔
    At bytes offset data ∧ data.length = width := by
  unfold get At
  constructor
  · intro h
    split at h
    · rename_i hle
      obtain rfl := Option.some.inj h
      rw [length_slice hle]
      exact ⟨⟨hle, rfl⟩, rfl⟩
    · cases h
  · rintro ⟨⟨hle, hs⟩, rfl⟩
    rw [if_pos hle, hs]

def getNat (bytes : Bytes) (offset width : ℕ) : Option ℕ := (get bytes offset width).map toNat

theorem getNat_eq_some : getNat bytes offset width = some n ↔
    At bytes offset (ofNat width n) ∧ n < 256 ^ width := by
  rw [getNat, Option.map_eq_some_iff]
  constructor
  · rintro ⟨data, hg, rfl⟩
    obtain ⟨hat, rfl⟩ := get_eq_some.1 hg
    have hlt := toNat_slice_lt bytes offset data.length
    rw [hat.2] at hlt
    rw [ofNat_toNat]
    exact ⟨hat, hlt⟩
  · rintro ⟨hat, hlt⟩
    exact ⟨_, get_eq_some.2 ⟨hat, length_ofNat _ _⟩, toNat_ofNat_of_lt hlt⟩

theorem at_singleton {b : UInt8} : At bytes offset [b] ↔ bytes[offset]? = some b := by
  rw [At, length_singleton, slice, take_one, head?_drop]
  constructor
  · rintro ⟨-, h⟩
    cases hg : bytes[offset]? with
    | none => rw [hg] at h; cases h
    | some c => rw [hg] at h; rw [singleton_inj.1 h]
  · intro h
    rw [h]
    exact ⟨(List.getElem?_eq_some_iff.1 h).1, rfl⟩

theorem At.toNat_slice (h : At bytes offset (ofNat width n)) (hn : n < 256 ^ width) :
    toNat (slice bytes offset width) = n := by
  have hs := h.2
  rw [length_ofNat] at hs
  rw [hs, toNat_ofNat_of_lt hn]

theorem At.toInt_slice {value : ℤ} (h : At bytes offset (ofInt width value))
    (hl : -((256 ^ width : ℕ) / 2 : ℤ) ≤ value) (hh : value < ((256 ^ width : ℕ) + 1) / 2) :
    toInt (slice bytes offset width) = value := by
  have hs := h.2
  rw [length_ofInt] at hs
  rw [hs, toInt_ofInt hl hh]

theorem At.slice_eq (h : At bytes offset data) (hw : data.length = width) :
    slice bytes offset width = data := hw ▸ h.2

def Fields (bytes : Bytes) : ℕ → List Bytes → Prop
  | offset, [] => bytes.length = offset
  | offset, data :: rest => At bytes offset data ∧ Fields bytes (offset + data.length) rest

theorem fields_iff : Fields bytes offset fields ↔
    offset ≤ bytes.length ∧ bytes.drop offset = fields.flatten := by
  induction fields generalizing offset with
  | nil =>
    rw [Fields, flatten_nil, drop_eq_nil_iff]
    omega
  | cons data rest ih =>
    rw [Fields, ih, At, flatten_cons]
    have hsp : bytes.drop offset =
        slice bytes offset data.length ++ bytes.drop (offset + data.length) := by
      rw [slice, ← drop_drop, take_append_drop]
    constructor
    · rintro ⟨⟨hle, hs⟩, -, hr⟩
      exact ⟨by omega, by rw [hsp, hs, hr]⟩
    · rintro ⟨hle, hd⟩
      have hl := congrArg length hd
      rw [length_drop, length_append] at hl
      have hs : slice bytes offset data.length = data := by
        rw [slice, hd, take_left]
      refine ⟨⟨by omega, hs⟩, by omega, ?_⟩
      rw [← drop_drop, hd, drop_left]

theorem fields_zero_iff : Fields bytes 0 fields ↔ bytes = fields.flatten := by
  rw [fields_iff, drop_zero]
  exact ⟨And.right, fun h => ⟨Nat.zero_le _, h⟩⟩

end Bytes

end Foundation
