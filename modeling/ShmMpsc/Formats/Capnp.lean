import ShmMpsc.Lib.Wire
import ShmMpsc.Proto.Capnp

/-!
# Cap'n Proto messages

The message of an event in one segment: a pointer to the struct, its data, two pointers, and the
text and the bytes they point to, each in words of eight bytes. A pointer counts words from its
own end.
-/

namespace ShmMpsc

set_option autoImplicit false

namespace CapnpWire

def padding (n : Nat) : List UInt8 := List.replicate ((8 - n % 8) % 8) 0

/-- Words of so many bytes with their padding. -/
def words (n : Nat) : Nat := (n + 7) / 8

theorem length_padded (bs : List UInt8) :
    (bs ++ padding bs.length).length = 8 * words bs.length := by
  rw [List.length_append, padding, List.length_replicate, words]
  omega

/-! ### Writing -/

def structPointer (offset data pointers : Nat) : List UInt8 :=
  toLE 4 (4 * offset) ++ toLE 2 data ++ toLE 2 pointers

/-- To a list of bytes. -/
def listPointer (offset count : Nat) : List UInt8 :=
  toLE 4 (4 * offset + 1) ++ toLE 4 (8 * count + 2)

def kindIndex : CapnpKind → Nat
  | .info => 0
  | .warn => 1
  | .error => 2
  | .metric => 3

/-- The text has a zero after it. -/
def textOf (s : String) : List UInt8 := utf8 s ++ [0]

def segment (ev : CapnpEvent) : List UInt8 :=
  structPointer 0 3 2 ++ (toLE 8 ev.seq.toNat ++ (toLE 8 ev.timestamp.toNat ++
    (toLE 8 (kindIndex ev.kind) ++ (listPointer 1 (textOf ev.source).length ++
      (listPointer (words (textOf ev.source).length) ev.payload.length ++
        ((textOf ev.source ++ padding (textOf ev.source).length) ++
          (ev.payload ++ padding ev.payload.length)))))))

/-- One segment, of so many words. -/
def message (ev : CapnpEvent) : List UInt8 :=
  (toLE 4 0 ++ toLE 4 ((segment ev).length / 8)) ++ segment ev

theorem segment_length (ev : CapnpEvent) : (segment ev).length =
    48 + 8 * words (textOf ev.source).length + 8 * words ev.payload.length := by
  simp only [segment, structPointer, listPointer, List.length_append, toLE_length, padding,
    List.length_replicate, words]
  omega

/-! ### Reading -/

structure StructReader where
  seg : List UInt8
  /-- Where its data starts. -/
  start : Nat
  dataWords : Nat
  pointers : Nat

/-- Messages of one segment only. -/
def readMessage (raw : List UInt8) : Option (List UInt8) := do
  let count ← slice raw 0 4
  let size ← slice raw 4 4
  if ofLE count = 0 then slice raw 8 (8 * ofLE size) else none

/-- A pointer of zeros is one to a struct without fields. -/
def getRoot (seg : List UInt8) : Option StructReader := do
  let offset ← slice seg 0 4
  let dataWords ← slice seg 4 2
  let pointers ← slice seg 6 2
  let start := 8 + 8 * (ofLE offset / 4)
  if ofLE offset % 4 = 0 ∧ start + 8 * (ofLE dataWords + ofLE pointers) ≤ seg.length then
    some ⟨seg, start, ofLE dataWords, ofLE pointers⟩
  else none

/-- A number of `k` bytes in the data; zero where the data does not go that far. -/
def StructReader.number (r : StructReader) (a k : Nat) : Nat :=
  if a + k ≤ 8 * r.dataWords then ofLE ((slice r.seg (r.start + a) k).getD []) else 0

/-- The bytes a pointer points to; none where there is no pointer or it is zero. -/
def StructReader.list (r : StructReader) (i : Nat) : Option (List UInt8) :=
  if i < r.pointers then do
    let pos := r.start + 8 * (r.dataWords + i)
    let low ← slice r.seg pos 4
    let high ← slice r.seg (pos + 4) 4
    if ofLE low = 0 ∧ ofLE high = 0 then some []
    else if ofLE low % 4 = 1 ∧ ofLE high % 8 = 2 then
      slice r.seg (pos + 8 + 8 * (ofLE low / 4)) (ofLE high / 8)
    else none
  else some []

/-- A text without its zero, which has to be there. -/
def untext (bs : List UInt8) : Option (List UInt8) :=
  match bs.getLast? with
  | none => some []
  | some b => if b = 0 then some bs.dropLast else none

def kindOf : Nat → Option CapnpKind
  | 0 => some .info
  | 1 => some .warn
  | 2 => some .error
  | 3 => some .metric
  | _ => none

theorem kindOf_kindIndex (kind : CapnpKind) : kindOf (kindIndex kind) = some kind := by
  cases kind <;> rfl

theorem kindIndex_lt (kind : CapnpKind) : kindIndex kind < 4 := by
  cases kind <;> decide

theorem untext_textOf (s : String) : untext (textOf s) = some (utf8 s) := by
  simp [untext, textOf]

/-! ### The round trip -/

theorem slice_table (ev : CapnpEvent) : slice (message ev) 0 4 = some (toLE 4 0) ∧
    slice (message ev) 4 4 = some (toLE 4 ((segment ev).length / 8)) := by
  rw [message, List.append_assoc]
  constructor
  · exact slice_left (toLE_length 4 0) _
  · rw [slice_right (toLE_length 4 0) (Nat.le_refl 4)]
    exact slice_left (toLE_length 4 _) _

theorem readMessage_message {ev : CapnpEvent} (h : (segment ev).length < 2 ^ 29) :
    readMessage (message ev) = some (segment ev) := by
  have hlen := segment_length ev
  obtain ⟨hcount, hwords⟩ := slice_table ev
  have hseg : slice (message ev) 8 (8 * ((segment ev).length / 8)) = some (segment ev) := by
    rw [message, slice_right (k := 8) (by simp) (Nat.le_refl 8)]
    have hexact : (segment ev).length = 8 * ((segment ev).length / 8) := by omega
    have htake := slice_left hexact []
    rwa [List.append_nil] at htake
  rw [readMessage, hcount, hwords, Option.bind_eq_bind, Option.bind_some, Option.bind_some,
    ofLE_toLE_of_lt (by decide), if_pos rfl, ofLE_toLE_of_lt (by omega), hseg]

variable {ev : CapnpEvent}

theorem getRoot_segment (ev : CapnpEvent) : getRoot (segment ev) = some ⟨segment ev, 8, 3, 2⟩ := by
  have hlen := segment_length ev
  have hoffset : slice (segment ev) 0 4 = some (toLE 4 0) := by
    simp only [segment, structPointer, List.append_assoc]
    exact slice_left (toLE_length 4 _) _
  have hdata : slice (segment ev) 4 2 = some (toLE 2 3) := by
    simp only [segment, structPointer, List.append_assoc]
    rw [slice_right (toLE_length 4 _) (Nat.le_refl 4)]
    exact slice_left (toLE_length 2 _) _
  have hpointers : slice (segment ev) 6 2 = some (toLE 2 2) := by
    simp only [segment, structPointer, List.append_assoc]
    rw [slice_right (toLE_length 4 _) (by decide), slice_right (toLE_length 2 _) (by decide)]
    exact slice_left (toLE_length 2 _) _
  simp only [getRoot, hoffset, hdata, hpointers, Option.bind_eq_bind, Option.bind_some]
  rw [ofLE_toLE_of_lt (by decide), ofLE_toLE_of_lt (by decide), ofLE_toLE_of_lt (by decide),
    if_pos ⟨rfl, by omega⟩]

theorem structPointer_length (offset data pointers : Nat) :
    (structPointer offset data pointers).length = 8 := by
  simp [structPointer]

theorem listPointer_length (offset count : Nat) : (listPointer offset count).length = 8 := by
  simp [listPointer]

theorem slice_data (ev : CapnpEvent) : slice (segment ev) 8 8 = some (toLE 8 ev.seq.toNat) ∧
    slice (segment ev) 16 8 = some (toLE 8 ev.timestamp.toNat) ∧
    slice (segment ev) 24 2 = some (toLE 2 (kindIndex ev.kind)) := by
  unfold segment
  refine ⟨?_, ?_, ?_⟩
  · rw [slice_right (structPointer_length 0 3 2) (by decide)]
    exact slice_left (toLE_length 8 _) _
  · rw [slice_right (structPointer_length 0 3 2) (by decide),
      slice_right (toLE_length 8 _) (by decide)]
    exact slice_left (toLE_length 8 _) _
  · have hkind : toLE 8 (kindIndex ev.kind) = toLE 2 (kindIndex ev.kind) ++ List.replicate 6 0 := by
      cases ev.kind <;> rfl
    rw [slice_right (structPointer_length 0 3 2) (by decide),
      slice_right (toLE_length 8 _) (by decide), slice_right (toLE_length 8 _) (by decide), hkind,
      List.append_assoc]
    exact slice_left (toLE_length 2 _) _

/-- Past the data, where the pointers are. -/
theorem slice_pointers (ev : CapnpEvent) {a n : Nat} (ha : 32 ≤ a) : slice (segment ev) a n =
    slice (listPointer 1 (textOf ev.source).length ++
      (listPointer (words (textOf ev.source).length) ev.payload.length ++
        ((textOf ev.source ++ padding (textOf ev.source).length) ++
          (ev.payload ++ padding ev.payload.length)))) (a - 32) n := by
  unfold segment
  rw [slice_right (structPointer_length 0 3 2) (by omega), slice_right (toLE_length 8 _) (by omega),
    slice_right (toLE_length 8 _) (by omega), slice_right (toLE_length 8 _) (by omega)]
  have hsub : a - 8 - 8 - 8 - 8 = a - 32 := by omega
  rw [hsub]

theorem slice_listPointer (offset count : Nat) (rest : List UInt8) :
    slice (listPointer offset count ++ rest) 0 4 = some (toLE 4 (4 * offset + 1)) ∧
    slice (listPointer offset count ++ rest) 4 4 = some (toLE 4 (8 * count + 2)) := by
  rw [listPointer, List.append_assoc]
  constructor
  · exact slice_left (toLE_length 4 _) _
  · rw [slice_right (toLE_length 4 _) (Nat.le_refl 4)]
    exact slice_left (toLE_length 4 _) _

/-- A pointer is followed to the bytes it counts. -/
theorem StructReader.list_eq {r : StructReader} {i offset : Nat} {bs : List UInt8}
    (hi : i < r.pointers)
    (hlow : slice r.seg (r.start + 8 * (r.dataWords + i)) 4 = some (toLE 4 (4 * offset + 1)))
    (hhigh : slice r.seg (r.start + 8 * (r.dataWords + i) + 4) 4 =
      some (toLE 4 (8 * bs.length + 2)))
        (hbytes : slice r.seg (r.start + 8 * (r.dataWords + i) + 8 + 8 * offset)
          bs.length = some bs)
    (hoffset : 4 * offset + 1 < 256 ^ 4) (hlength : 8 * bs.length + 2 < 256 ^ 4) :
    r.list i = some bs := by
  have hoff : (4 * offset + 1) / 4 = offset := by omega
  have hcount : (8 * bs.length + 2) / 8 = bs.length := by omega
  simp only [StructReader.list]
  rw [if_pos hi, hlow, hhigh, Option.bind_eq_bind, Option.bind_some, Option.bind_some,
    ofLE_toLE_of_lt hoffset, ofLE_toLE_of_lt hlength, if_neg (by omega),
    if_pos (by omega), hoff, hcount]
  exact hbytes

theorem list_source (h : (segment ev).length < 2 ^ 29) :
    StructReader.list ⟨segment ev, 8, 3, 2⟩ 0 = some (textOf ev.source) := by
  have hlen := segment_length ev
  have hwords : words (textOf ev.source).length = ((textOf ev.source).length + 7) / 8 := rfl
  have hlow : slice (segment ev) 32 4 = some (toLE 4 (4 * 1 + 1)) := by
    rw [slice_pointers ev (by decide)]
    exact (slice_listPointer 1 _ _).1
  have hhigh : slice (segment ev) 36 4 = some (toLE 4 (8 * (textOf ev.source).length + 2)) := by
    rw [slice_pointers ev (by decide)]
    exact (slice_listPointer 1 _ _).2
  have hbytes : slice (segment ev) 48 (textOf ev.source).length = some (textOf ev.source) := by
    rw [slice_pointers ev (by decide), slice_right (listPointer_length _ _) (by decide),
      slice_right (listPointer_length _ _) (by decide), List.append_assoc]
    exact slice_left rfl _
  exact StructReader.list_eq Nat.zero_lt_two hlow hhigh hbytes (by decide) (by omega)

theorem list_payload (h : (segment ev).length < 2 ^ 29) :
    StructReader.list ⟨segment ev, 8, 3, 2⟩ 1 = some ev.payload := by
  have hlen := segment_length ev
  have hwords : words ev.payload.length = (ev.payload.length + 7) / 8 := rfl
  have hlow : slice (segment ev) 40 4 =
      some (toLE 4 (4 * words (textOf ev.source).length + 1)) := by
    rw [slice_pointers ev (by decide), slice_right (listPointer_length _ _) (by decide)]
    exact (slice_listPointer _ _ _).1
  have hhigh : slice (segment ev) 44 4 = some (toLE 4 (8 * ev.payload.length + 2)) := by
    rw [slice_pointers ev (by decide), slice_right (listPointer_length _ _) (by decide)]
    exact (slice_listPointer _ _ _).2
  have hbytes : slice (segment ev) (48 + 8 * words (textOf ev.source).length) ev.payload.length =
      some ev.payload := by
    rw [slice_pointers ev (by omega), slice_right (listPointer_length _ _) (by omega),
      slice_right (listPointer_length _ _) (by omega), slice_right (length_padded _) (by omega)]
    have hstart : 48 + 8 * words (textOf ev.source).length - 32 - 8 - 8 -
        8 * words (textOf ev.source).length = 0 := by omega
    rw [hstart]
    exact slice_left rfl _
  exact StructReader.list_eq Nat.one_lt_two hlow hhigh hbytes (by omega) (by omega)

end CapnpWire

open CapnpWire in
/-- Cap'n Proto as it is in bytes, whatever the size of the scratch space. -/
def capnpBytes : Capnp where
  Message := List UInt8
  Reader := StructReader
  writeMessage := fun scratch ev => (message ev, List.replicate scratch.length 0)
  readMessage := readMessage
  getRoot := getRoot
  getSeq := fun r => UInt64.ofNat (r.number 0 8)
  getTimestamp := fun r => UInt64.ofNat (r.number 8 8)
  getSource := fun r => (r.list 0).bind untext
  getKind := fun r => kindOf (r.number 16 2)
  getPayload := fun r => r.list 1

open CapnpWire in
theorem capnpBytes_readsAs {ev : CapnpEvent} (h : (segment ev).length < 2 ^ 29) :
    capnpBytes.ReadsAs ⟨segment ev, 8, 3, 2⟩ ev := by
  obtain ⟨hseq, hts, hkind⟩ := slice_data ev
  have hindex := kindIndex_lt ev.kind
  refine ⟨?_, ?_, ?_, ?_, ?_⟩
  · simp only [capnpBytes, StructReader.number]
    rw [if_pos (by decide), hseq, Option.getD_some, ofLE_toLE_of_lt ev.seq.toNat_lt,
      UInt64.ofNat_toNat]
  · simp only [capnpBytes, StructReader.number]
    rw [if_pos (by decide), hts, Option.getD_some, ofLE_toLE_of_lt ev.timestamp.toNat_lt,
      UInt64.ofNat_toNat]
  · simp only [capnpBytes, list_source h, Option.bind_some, untext_textOf]
  · simp only [capnpBytes, StructReader.number]
    rw [if_pos (by decide), hkind, Option.getD_some, ofLE_toLE_of_lt (by omega), kindOf_kindIndex]
  · exact list_payload h

open CapnpWire in
theorem capnpBytes_documented : capnpBytes.Documented where
  keeps := fun _ _ => List.length_replicate
  zeroed := fun _ _ _ _ => rfl
  oneSegment := fun _ _ _ _ _ => rfl
  roundTrip := by
    intro scratch ev h
    have hlimit : presetLimit < 2 ^ 29 := by decide
    have hseg : (segment ev).length < 2 ^ 29 := by
      have hmsg : (message ev).length ≤ presetLimit := h
      rw [message, List.length_append] at hmsg
      omega
    exact ⟨segment ev, ⟨segment ev, 8, 3, 2⟩, readMessage_message hseg, getRoot_segment ev,
      capnpBytes_readsAs hseg⟩

end ShmMpsc
