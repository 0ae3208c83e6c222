import ShmMpsc.Proto.Json
import Mathlib.Algebra.Order.Group.Nat

/-!
# The synthetic payload

`gen_base64_blob` makes what looks like the base64 text of a blob. Its indices and subtractions
are in range for every length, and what it makes is ASCII without escapes, so that the JSON
codec carries it as it is. `none` is a panic.
-/

namespace ShmMpsc

set_option autoImplicit false

def ALPHABET : List UInt8 := utf8 "ABCDEFGHIJKLMNOPQRSTUVWXYZabcdefghijklmnopqrstuvwxyz0123456789+/"

def lcgNext (s : UInt64) : UInt64 := s * 6364136223846793005 + 1442695040888963407

/-- The loop over `out.iter_mut()`. -/
def fillBlob (s : UInt64) : List UInt8 → Option (List UInt8)
  | [] => some []
  | _ :: out => do
    let s := lcgNext s
    let byte ← ALPHABET[(s >>> 32).toNat &&& 63]?
    let out ← fillBlob s out
    return byte :: out

/-- `a - b` of a `usize`. -/
def checkedSub (a b : Nat) : Option Nat := if b ≤ a then some (a - b) else none

/-- `out[i] = byte`. -/
def setAt (out : List UInt8) (i : Nat) (byte : UInt8) : Option (List UInt8) :=
  if i < out.length then some (out.set i byte) else none

def padByte : UInt8 := 61

/-- `out[n - 1 - i] = b'='`. -/
def padOne (n : Nat) (out : List UInt8) (i : Nat) : Option (List UInt8) := do
  let last ← checkedSub n 1
  let pos ← checkedSub last i
  setAt out pos padByte

def genBase64Blob (n : Nat) : Option (List UInt8) := do
  let out ← fillBlob 0xdeadbeefcafebabe (List.replicate n 0)
  if 4 ≤ n then
    let rem ← checkedSub 4 (n % 4)
    (List.range (rem % 4)).foldlM (padOne n) out
  else return out

example : genBase64Blob 6 = some (utf8 "zADo==") := by decide

/-! ### Lengths and positions -/

theorem fillBlob_spec (s : UInt64) (out : List UInt8) :
    ∃ blob, fillBlob s out = some blob ∧ blob.length = out.length ∧ ∀ b ∈ blob, b ∈ ALPHABET := by
  induction out generalizing s with
  | nil => exact ⟨[], rfl, rfl, by simp⟩
  | cons b out ih =>
    obtain ⟨blob, hfill, hlen, hmem⟩ := ih (lcgNext s)
    -- the mask keeps the index below the 64 letters
    have hidx : (lcgNext s >>> 32).toNat &&& 63 < ALPHABET.length :=
      Nat.lt_of_le_of_lt Nat.and_le_right (by decide)
    refine ⟨ALPHABET[(lcgNext s >>> 32).toNat &&& 63] :: blob, ?_, by simp [hlen], ?_⟩
    · simp only [fillBlob, List.getElem?_eq_getElem hidx, hfill]
      rfl
    · rw [List.forall_mem_cons]
      exact ⟨List.getElem_mem hidx, hmem⟩

theorem checkedSub_of_le {a b : Nat} (h : b ≤ a) : checkedSub a b = some (a - b) := if_pos h

theorem padOne_eq {n i : Nat} {out : List UInt8} (hlen : out.length = n) (hi : i < n) :
    padOne n out i = some (out.set (n - 1 - i) padByte) := by
  have hone : 1 ≤ n := by omega
  have hback : i ≤ n - 1 := by omega
  have hpos : n - 1 - i < out.length := by omega
  simp only [padOne, checkedSub_of_le hone, checkedSub_of_le hback, Option.bind_eq_bind,
    Option.bind_some, setAt, if_pos hpos]

/-- After `k` rounds the last `k` bytes are `=` and the others are as they were. -/
theorem padded {n : Nat} {out : List UInt8} (hlen : out.length = n) (k : Nat) (hk : k ≤ n) :
    ∃ blob, (List.range k).foldlM (padOne n) out = some blob ∧ blob.length = n ∧
      ∀ i, blob[i]? = if n ≤ i + k ∧ i < n then some padByte else out[i]? := by
  induction k with
  | zero =>
    refine ⟨out, rfl, hlen, fun i => ?_⟩
    rw [if_neg (by omega)]
  | succ k ih =>
    obtain ⟨blob, hfold, hblob, hget⟩ := ih (by omega)
    refine ⟨blob.set (n - 1 - k) padByte, ?_, by simp [hblob], fun i => ?_⟩
    · have hlt : k < n := by omega
      rw [List.range_succ, List.foldlM_append, hfold]
      simp [padOne_eq hblob hlt]
    · rw [List.getElem?_set, hget]
      split
      · rw [if_pos (by omega), if_pos (by omega)]
      · congr 1
        exact propext (by omega)

/-- `=` stands in the last places, as many as base64 asks for, and nowhere else. -/
theorem genBase64Blob_spec (n : Nat) : ∃ blob, genBase64Blob n = some blob ∧ blob.length = n ∧
    (∀ b ∈ blob, b ∈ ALPHABET ∨ b = padByte) ∧
    ∀ i, blob[i]? = some padByte ↔ 4 ≤ n ∧ i < n ∧ n ≤ i + (4 - n % 4) % 4 := by
  obtain ⟨out, hfill, hlen, hmem⟩ := fillBlob_spec 0xdeadbeefcafebabe (List.replicate n 0)
  rw [List.length_replicate] at hlen
  have hout (i : Nat) : out[i]? ≠ some padByte := by
    intro hget
    have hpad : padByte ∉ ALPHABET := by decide
    exact hpad (hmem _ (List.mem_of_getElem? hget))
  by_cases hn : 4 ≤ n
  · obtain ⟨blob, hfold, hblob, hget⟩ := padded hlen ((4 - n % 4) % 4) (by omega)
    refine ⟨blob, ?_, hblob, ?_, ?_⟩
    · have hrem : n % 4 ≤ 4 := by omega
      simp only [genBase64Blob, hfill, Option.bind_eq_bind, Option.bind_some, if_pos hn,
        checkedSub_of_le hrem, hfold]
    · intro b hb
      obtain ⟨i, hi⟩ := List.mem_iff_getElem?.mp hb
      rw [hget] at hi
      split at hi
      · exact .inr (Option.some.inj hi).symm
      · exact .inl (hmem _ (List.mem_of_getElem? hi))
    · intro i
      rw [hget]
      split
      · simp only [true_iff]
        omega
      · simp only [hout, false_iff]
        omega
  · refine ⟨out, ?_, hlen, fun b hb => .inl (hmem b hb), fun i => ?_⟩
    · simp only [genBase64Blob, hfill, Option.bind_eq_bind, Option.bind_some, if_neg hn]
      rfl
    · simp only [hout, false_iff]
      omega

/-! ### Through the JSON codec -/

theorem letter_plain {b : UInt8} (hb : b ∈ padByte :: ALPHABET) :
    b < 128 ∧ mustEscape (Char.ofNat b.toNat) = false := by
  have hall : (padByte :: ALPHABET).all
      (fun b => b < 128 && !mustEscape (Char.ofNat b.toNat)) = true := by decide
  simpa using List.all_eq_true.mp hall b hb

/-- A text of such bytes has nothing to escape. -/
theorem plain_of_letters {blob : List UInt8} (h : ∀ b ∈ blob, b ∈ ALPHABET ∨ b = padByte) :
    ∃ text, fromUtf8 blob = some text ∧ Plain text := by
  have hletter (b : UInt8) (hb : b ∈ blob) : b < 128 ∧ mustEscape (Char.ofNat b.toNat) = false :=
    letter_plain (List.mem_cons.mpr (h b hb).symm)
  refine ⟨_, fromUtf8_of_ascii fun b hb => (hletter b hb).1, ?_⟩
  intro c hc
  rw [String.toList_ofList, List.mem_map] at hc
  obtain ⟨b, hb, rfl⟩ := hc
  exact (hletter b hb).2

variable {φ : Type} {sj : SerdeJson φ}

theorem synthetic_payload_survives (h : sj.Documented) (n : Nat) :
    ∃ blob, genBase64Blob n = some blob ∧ blob.length = n ∧
      (∀ b ∈ blob, b ∈ ALPHABET ∨ b = padByte) ∧
      (∀ i, blob[i]? = some padByte → 4 ≤ n ∧ n ≤ i + (4 - n % 4) % 4) ∧
      ∀ seq ts source kind dst out, Plain source → ∃ bytes,
        (jsonCodec sj).encode () seq ts source kind blob dst = .ok ((), dst ++ bytes) ∧
        (jsonCodec sj).decodeInto () bytes out = ((), ⟨seq, ts, source, kind, blob⟩, true) := by
  obtain ⟨blob, hgen, hlen, hmem, hpad⟩ := genBase64Blob_spec n
  obtain ⟨text, htext, hplain⟩ := plain_of_letters hmem
  refine ⟨blob, hgen, hlen, hmem, fun i hi => ?_, ?_⟩
  · obtain ⟨hn, -, htail⟩ := (hpad i).mp hi
    exact ⟨hn, htail⟩
  · intro seq ts source kind dst out hsource
    obtain ⟨bytes, henc, hdec⟩ := jsonCodec_decode_encode seq ts source kind h htext dst out
    rw [plain_iff.mp hsource, plain_iff.mp hplain] at hdec
    exact ⟨bytes, henc, hdec⟩

theorem synthetic_payload_survives_six : ∃ bytes,
    (jsonCodec compactJson).encode () 0 7 "producer-0" .metric (utf8 "zADo==") [] =
      .ok ((), [] ++ bytes) ∧
    (jsonCodec compactJson).decodeInto () bytes .empty =
      ((), ⟨0, 7, "producer-0", .metric, utf8 "zADo=="⟩, true) := by
  obtain ⟨blob, hgen, -, -, -, hjson⟩ := synthetic_payload_survives compactJson_documented 6
  have hblob : blob = utf8 "zADo==" := by
    have hsix : genBase64Blob 6 = some (utf8 "zADo==") := by decide
    rw [hgen] at hsix
    exact Option.some.inj hsix
  rw [← hblob]
  exact hjson 0 7 "producer-0" .metric [] .empty (by decide)

end ShmMpsc
