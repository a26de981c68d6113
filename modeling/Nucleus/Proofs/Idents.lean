import Mathlib.Data.List.TakeWhile
import Nucleus.Proofs.Lookup
import Nucleus.Spec.Idents

/-!
# `Nucleus.Proofs.Idents`: what the identifier setters establish

A text of up to `identMax` bytes is stored in the same way by both setters, and as the model of the
tables has it (`identSetStrIn_bytes`, `identSetIn_eq`). The byte at `identMax` is not written then,
so a text of `identMax` bytes ends at what was there before. `nu_ident_set` compares a longer text
with `NU_IDENT_SIZE` instead, and the number of bytes to clear wraps around
(`identSetIn_footprint`).
-/

set_option autoImplicit false

namespace Nucleus.Proofs

open Nucleus.Lib
open Nucleus.Vm
open Nucleus.Spec

/-! ### Texts that have room -/

/-- The number of bytes to clear does not wrap around. -/
theorem clear_count {len : Nat} (h : len ≤ identMax) :
    (UInt64.ofNat identMax - UInt64.ofNat len).toNat = identMax - len := by
  have hmax : identMax < 2 ^ 64 := by decide
  rw [← UInt64.ofNat_sub h, UInt64.toNat_ofNat_of_lt' (Nat.lt_of_le_of_lt (Nat.sub_le _ _) hmax)]

/-- The setter on memory stores what the one on identifiers does. -/
theorem identSetStrIn_bytes (m : Memory) (s : List Char) :
    (identSetStrIn m s).bytes = identSetStr m.bytes s := by
  funext i
  simp only [identSetStrIn, identSetLenIn, Memory.copy_bytes, Memory.fill_bytes,
    Memory.store_bytes, clear_count (strnlen_le s identMax)]
  rfl

/-- It writes inside the identifier. -/
theorem identSetStrIn_footprint {m : Memory} {s : List Char} {a : Nat}
    (h : (identSetStrIn m s).footprint a = true) : a < identSize ∨ m.footprint a = true := by
  have hle := strnlen_le s identMax
  have hsize : identSize = identMax + 2 := rfl
  simp only [identSetStrIn, identSetLenIn, Memory.copy_footprint, Memory.fill_footprint,
    Memory.store_footprint, clear_count hle, Bool.or_eq_true, decide_eq_true_eq] at h
  rcases h with hcopy | hclear | hlen | hbefore
  · exact Or.inl (by omega)
  · exact Or.inl (by omega)
  · exact Or.inl (by omega)
  · exact Or.inr hbefore

section
variable (s : ByteString)

/-- A string of C ends at its terminator. -/
theorem takeWhile_chars : s.chars.takeWhile (· ≠ '\x00') = s.chars := by
  refine List.takeWhile_eq_self_iff.mpr fun c hc => ?_
  have hpos := (s.isByte c hc).1
  rw [decide_eq_true_eq]
  rintro rfl
  exact absurd hpos (by decide)

/-- The length that is measured is at most the bound. -/
theorem strnlen_chars : strnlen s.chars identMax = min s.chars.length identMax := by
  rw [strnlen_eq, takeWhile_chars, List.length_take, Nat.min_comm]

/-- The text of an identifier is the string cut off at the bound. -/
theorem identText_chars : identText s.chars = s.ident := by
  rw [identText, takeWhile_chars, ByteString.ident]

/-- An identifier is as long as its string, up to the bound. -/
theorem ident_length : s.ident.length = min s.chars.length identMax := by
  rw [ByteString.ident, List.length_map, List.length_take, Nat.min_comm]

/-- Up to `identMax` bytes both setters do the same. -/
theorem identSetIn_eq {s : ByteString} (h : s.chars.length ≤ identMax) (m : Memory) :
    identSetIn m s.chars s.chars.length = identSetStrIn m s.chars := by
  have hsize : ¬ identSize < s.chars.length := by
    show ¬ identMax + 2 < s.chars.length
    omega
  simp only [identSetIn, identSetStrIn]
  rw [if_neg hsize, strnlen_chars, Nat.min_eq_left h]

/-- The bytes that `nu_uidn` hashes are those of the identifier. -/
theorem uidn_chars : uidn s.chars (min s.chars.length identMax) = fnv1aHash32 s.ident := by
  rw [uidn]
  congr 1
  refine List.ext_getElem (by simp [ident_length]) fun i hi _ => ?_
  have hchars : i < s.chars.length := by
    simp only [List.length_map, List.length_range] at hi
    omega
  simp [ByteString.ident, charAt, List.getD_eq_getElem?_getD, List.getElem?_eq_getElem hchars]

/-- No character of an identifier is the terminator. -/
theorem ident_ne_zero {i : Nat} (hi : i < s.ident.length) : s.ident[i] ≠ 0 := by
  have hchars : i < s.chars.length := by
    rw [ident_length] at hi
    omega
  obtain ⟨hpos, hlt⟩ := s.isByte _ (List.getElem_mem hchars)
  have hget : s.ident[i] = UInt8.ofNat s.chars[i].toNat := by
    simp [ByteString.ident]
  intro h
  rw [hget, ← UInt8.toNat_inj, UInt8.toNat_ofNat_of_lt' hlt] at h
  exact Nat.ne_of_gt hpos h

/-! ### Both setters -/

/-- The bytes of an identifier that was set with `nu_ident_set_str`. -/
theorem identSetStr_length (ident : Ident) :
    identLen (identSetStr ident s.chars) = s.ident.length := by
  have hstr := congrArg List.length (identStr_identSetStr ident s.chars)
  rwa [identStr, List.length_map, List.length_range, identText_chars] at hstr

/-- The characters that are copied are those of the string. -/
theorem identSetStr_text (ident : Ident) {i : Nat} (hi : i < s.ident.length) :
    identSetStr ident s.chars i = s.ident[i] := by
  have hlen := identSetStr_length s ident
  have hstr := identStr_identSetStr ident s.chars
  have hget : (identStr (identSetStr ident s.chars))[i]? = s.ident[i]? := by
    rw [hstr, identText_chars]
  rw [List.getElem?_eq_getElem hi, identStr, hlen, List.getElem?_map,
    List.getElem?_range hi] at hget
  exact Option.some.inj hget

/-- The byte behind the text is a NUL, or the one that was there. -/
theorem identSetStr_terminator (ident : Ident) :
    identSetStr ident s.chars s.ident.length =
      if s.chars.length < identMax then 0 else ident identMax := by
  have hlen : strnlen s.chars identMax = s.ident.length := by rw [strnlen_chars, ident_length]
  have hmin := ident_length s
  simp only [identSetStr, identSetLen, memcpy, memset, hlen]
  rw [if_neg (Nat.lt_irrefl _)]
  by_cases hroom : s.chars.length < identMax
  · rw [if_pos (by omega), if_pos hroom]
  · -- nothing is cleared behind a text of `identMax` bytes
    have hfull : s.ident.length = identMax := by omega
    rw [if_neg (by omega), if_neg hroom, hfull, if_neg (by omega)]

/-- What a setter that goes through `identSetStrIn` establishes, but for the terminator. -/
theorem establishes_iff {setter : IdentSetter} {prior : Nat → UInt8} {s : ByteString}
    (hcall : setter.call prior s = identSetStrIn (.fresh prior) s.chars) :
    Establishes setter prior s ↔ s.chars.length < identMax ∨ prior identMax = 0 := by
  have hbytes : (setter.call prior s).bytes = identSetStr prior s.chars := by
    rw [hcall, identSetStrIn_bytes]
    rfl
  -- the last byte is written only for a shorter text
  have hend := identSetStr_terminator s prior
  constructor
  · intro h
    have hzero := h.str.terminator
    rw [hbytes, hend] at hzero
    by_cases hroom : s.chars.length < identMax
    · exact Or.inl hroom
    · rw [if_neg hroom] at hzero
      exact Or.inr hzero
  · intro hfits
    refine ⟨?_, ⟨fun i hi => ⟨?_, ident_ne_zero s hi⟩, ?_⟩, ?_, fun a ha => ?_⟩
    · rw [hbytes, identSetStr_length, ident_length]
    · rw [hbytes, identSetStr_text s prior hi]
    · rw [hbytes, hend]
      split
      · rfl
      · rename_i hroom
        exact hfits.resolve_left hroom
    · rw [hbytes, identUid, identStr_identSetStr, identText_chars, uidn_chars]
    · rw [hcall] at ha
      rcases identSetStrIn_footprint ha with hinside | hbefore
      · exact hinside
      · cases hbefore

/-- With more than `identMax` bytes `nu_ident_set` writes behind the identifier. -/
theorem identSetIn_footprint {s : List Char} {n : Nat} (h : identMax < n) (m : Memory) :
    (identSetIn m s n).footprint identSize = true := by
  -- two lengths pass the comparison with `NU_IDENT_SIZE`, and the count wraps around for both
  have hwrap : ∀ len, identMax < len → len ≤ identSize →
      (identSetLenIn m len).footprint identSize = true := by
    intro len hlow hhigh
    have hcases : len = 31 ∨ len = 32 := by
      have hmax : identMax = 30 := rfl
      have hsize : identSize = 32 := rfl
      omega
    simp only [identSetLenIn, Memory.fill_footprint, Bool.or_eq_true, decide_eq_true_eq]
    left
    rcases hcases with rfl | rfl
    · decide
    · decide
  simp only [identSetIn, Memory.copy_footprint, Bool.or_eq_true]
  right
  split
  · exact hwrap identSize (by decide) (Nat.le_refl _)
  · rename_i hle
    exact hwrap n h (Nat.le_of_not_lt hle)

/-- A setter establishes the identifier exactly when the text and the memory fit. -/
theorem identSetter_establishes_iff (setter : IdentSetter) (prior : Nat → UInt8) (s : ByteString) :
    Establishes setter prior s ↔ setter.Fits prior s := by
  cases setter with
  | identSetStr =>
      rw [establishes_iff rfl, IdentSetter.Fits]
      simp
  | identSet =>
      by_cases hlong : identMax < s.chars.length
      · -- a longer text is copied beyond the identifier
        refine iff_of_false (fun h => ?_) ?_
        · exact Nat.lt_irrefl _ (h.inside _ (identSetIn_footprint hlong _))
        · rintro (hshort | ⟨-, hexact⟩)
          · omega
          · exact Nat.ne_of_gt hlong (hexact rfl)
      · -- up to `identMax` bytes this setter is the other one
        have hcall : IdentSetter.identSet.call prior s = identSetStrIn (.fresh prior) s.chars :=
          identSetIn_eq (Nat.le_of_not_lt hlong) _
        rw [establishes_iff hcall, IdentSetter.Fits]
        constructor
        · rintro (hshort | hzero)
          · exact Or.inl hshort
          · by_cases hshort : s.chars.length < identMax
            · exact Or.inl hshort
            · exact Or.inr ⟨hzero, fun _ => by omega⟩
        · rintro (hshort | ⟨hzero, -⟩)
          · exact Or.inl hshort
          · exact Or.inr hzero

end

/-- The string of an established identifier. -/
theorem identStr_of_establishes {setter : IdentSetter} {prior : Nat → UInt8} {s : ByteString}
    (h : Establishes setter prior s) : identStr (setter.call prior s).bytes = s.ident := by
  have hlen := h.len
  rw [← ident_length] at hlen
  rw [identStr, hlen]
  refine List.ext_getElem (by simp) fun i hi _ => ?_
  rw [List.length_map, List.length_range] at hi
  rw [List.getElem_map, List.getElem_range]
  exact (h.str.text i hi).1

/-- A setter establishes the identifier exactly when the text and the memory fit, and then it does
not matter which setter it is and what was in the memory. -/
theorem identSetters_agree (setter : IdentSetter) (prior : Nat → UInt8) (s : ByteString) :
    (Establishes setter prior s ↔ setter.Fits prior s) ∧
      ∀ (setter' : IdentSetter) (prior' : Nat → UInt8),
        setter.Fits prior s → setter'.Fits prior' s →
          identStr (setter.call prior s).bytes = identStr (setter'.call prior' s).bytes ∧
            identUid (setter.call prior s).bytes = identUid (setter'.call prior' s).bytes := by
  refine ⟨identSetter_establishes_iff setter prior s, fun setter' prior' hfits hfits' => ?_⟩
  have h := (identSetter_establishes_iff setter prior s).mpr hfits
  have h' := (identSetter_establishes_iff setter' prior' s).mpr hfits'
  exact ⟨by rw [identStr_of_establishes h, identStr_of_establishes h'], by rw [h.uid, h'.uid]⟩

/-- `n` times the letter a. -/
def letters (n : Nat) : ByteString where
  chars := List.replicate n 'a'
  isByte := fun _ hc => List.eq_of_mem_replicate hc ▸ (by decide)

/-- A short text, stored by both setters. -/
theorem identSetters_agree_letters :
    identStr (IdentSetter.identSet.call (fun _ => 1) (letters 3)).bytes =
        identStr (IdentSetter.identSetStr.call (fun _ => 0) (letters 3)).bytes ∧
      identUid (IdentSetter.identSet.call (fun _ => 1) (letters 3)).bytes =
        identUid (IdentSetter.identSetStr.call (fun _ => 0) (letters 3)).bytes :=
  (identSetters_agree .identSet (fun _ => 1) (letters 3)).2 .identSetStr (fun _ => 0)
    (Or.inl (by decide)) (Or.inl (by decide))

/-- A text of 31 bytes is written behind the identifier by `nu_ident_set`. With a byte left over in
the place of its NUL a text of 30 bytes is not ended by either setter. -/
theorem not_establishes_letters :
    ¬ Establishes .identSet (fun _ => 0) (letters 31) ∧
      ∀ setter : IdentSetter, ¬ Establishes setter (fun _ => 1) (letters 30) := by
  refine ⟨fun h => ?_, fun setter h => ?_⟩
  · rcases (identSetter_establishes_iff _ _ _).mp h with hshort | ⟨-, hexact⟩
    · exact absurd hshort (by decide)
    · exact absurd (hexact rfl) (by decide)
  · rcases (identSetter_establishes_iff _ _ _).mp h with hshort | ⟨hzero, -⟩
    · exact absurd hshort (by decide)
    · exact absurd hzero (by decide)

end Nucleus.Proofs
