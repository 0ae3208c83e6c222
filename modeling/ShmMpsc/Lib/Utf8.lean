import Mathlib.Logic.Basic

/-!
# Strings as bytes
-/

namespace ShmMpsc

set_option autoImplicit false

/-- `as_bytes`. -/
def utf8 (s : String) : List UInt8 := s.toByteArray.data.toList

/-- `str::from_utf8`. -/
def fromUtf8 (bytes : List UInt8) : Option String := String.fromUTF8? { data := bytes.toArray }

@[simp] theorem fromUtf8_utf8 (s : String) : fromUtf8 (utf8 s) = some s := by
  have hdata : ({ data := (utf8 s).toArray } : ByteArray) = s.toByteArray := by simp [utf8]
  rw [fromUtf8, hdata, String.fromUTF8?, dif_pos s.isValidUTF8]
  rfl

theorem utf8_of_fromUtf8 {bytes : List UInt8} {s : String} (h : fromUtf8 bytes = some s) :
    utf8 s = bytes := by
  unfold fromUtf8 String.fromUTF8? at h
  split at h
  · cases h
    simp [utf8, String.fromUTF8]
  · cases h

theorem utf8_eq_flatMap (s : String) : utf8 s = s.toList.flatMap String.utf8EncodeChar := by
  have hs : s.toByteArray = s.toList.utf8Encode := by
    rw [← String.toByteArray_ofList, String.ofList_toList]
  rw [utf8, hs, List.utf8Encode, List.data_toByteArray]

theorem utf8_append (s t : String) : utf8 (s ++ t) = utf8 s ++ utf8 t := by
  simp [utf8_eq_flatMap]

/-- Bytes below 0x80 stand for themselves. -/
theorem mem_utf8EncodeChar {b : UInt8} (hb : b < 128) {c : Char} (h : b ∈ String.utf8EncodeChar c) :
    c.toNat = b.toNat := by
  have hb : b.toNat < 128 := by simpa [UInt8.lt_iff_toNat_lt] using hb
  have hc : c.toNat = c.val.toNat := rfl
  unfold String.utf8EncodeChar at h
  dsimp only at h
  split at h
  · obtain rfl := List.mem_singleton.mp h
    rw [UInt8.toNat_ofNat', hc]
    omega
  · exfalso
    split at h
    · simp only [List.mem_cons, List.not_mem_nil, or_false] at h
      rcases h with rfl | rfl <;> simp [UInt8.toNat_ofNat'] at hb <;> omega
    · split at h
      · simp only [List.mem_cons, List.not_mem_nil, or_false] at h
        rcases h with rfl | rfl | rfl <;> simp [UInt8.toNat_ofNat'] at hb <;> omega
      · simp only [List.mem_cons, List.not_mem_nil, or_false] at h
        rcases h with rfl | rfl | rfl | rfl <;> simp [UInt8.toNat_ofNat'] at hb <;> omega

theorem mem_of_mem_utf8 {b : UInt8} (hb : b < 128) {s : String} (h : b ∈ utf8 s) :
    Char.ofNat b.toNat ∈ s.toList := by
  rw [utf8_eq_flatMap] at h
  obtain ⟨c, hc, hbc⟩ := List.mem_flatMap.mp h
  rwa [← mem_utf8EncodeChar hb hbc, Char.ofNat_toNat]

theorem utf8EncodeChar_ofNat {b : UInt8} (hb : b < 128) :
    String.utf8EncodeChar (Char.ofNat b.toNat) = [b] := by
  have hb : b.toNat < 128 := by simpa [UInt8.lt_iff_toNat_lt] using hb
  have hval : (Char.ofNat b.toNat).val.toNat = b.toNat := by
    rw [Char.ofNat, dif_pos (.inl (by omega))]
    rfl
  unfold String.utf8EncodeChar
  dsimp only
  rw [hval, if_pos (by omega), UInt8.ofNat_toNat]

/-- ASCII bytes are a text, a character for each. -/
theorem fromUtf8_of_ascii {bytes : List UInt8} (h : ∀ b ∈ bytes, b < 128) :
    fromUtf8 bytes = some (.ofList (bytes.map fun b => Char.ofNat b.toNat)) := by
  have hbytes : utf8 (.ofList (bytes.map fun b => Char.ofNat b.toNat)) = bytes := by
    rw [utf8_eq_flatMap, String.toList_ofList]
    induction bytes with
    | nil => rfl
    | cons b bytes ih =>
      rw [List.forall_mem_cons] at h
      rw [List.map_cons, List.flatMap_cons, utf8EncodeChar_ofNat h.1, ih h.2]
      rfl
  rw [← fromUtf8_utf8 (.ofList _), hbytes]

end ShmMpsc
