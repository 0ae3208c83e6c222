import ShmMpsc.Lib.Access
import ShmMpsc.Lib.Memory
import ShmMpsc.Proto.Codec

/-!
# The FlatBuffers codec

`flatbuffers` is a parameter: a builder that lays out a few objects and one table that points to
them, and getters for the table's slots. The table is read on trust: the crate follows the offsets
it finds, and of these the decoder has only checked that there are four bytes for the first. So a
getter is what it reads and what it answers, unless it panics.
-/

namespace ShmMpsc

set_option autoImplicit false

inductive FlatObject where
  | string (s : String)
  | vector (bs : List UInt8)
  deriving DecidableEq, Repr

/-- What is pushed into a slot; an offset is that of the object of this number. -/
inductive FlatField where
  | u64 (v : UInt64)
  | u8 (v : UInt8)
  | offset (i : Nat)
  deriving DecidableEq, Repr

/-- `Table::get` by type, with a `Vector` as its place, and what is read through it. -/
structure FlatTables where
  getU64 : (buf : List UInt8) → (loc : Nat) → (slot : UInt16) → (default : Option UInt64) →
    Access (Option UInt64)
  getU8 : (buf : List UInt8) → (loc : Nat) → (slot : UInt16) → (default : Option UInt8) →
    Access (Option UInt8)
  getString : (buf : List UInt8) → (loc : Nat) → (slot : UInt16) → (default : Option String) →
    Access (Option String)
  getVector : (buf : List UInt8) → (loc : Nat) → (slot : UInt16) → (default : Option Nat) →
    Access (Option Nat)
  /-- `Vector::bytes`. -/
  bytes : (buf : List UInt8) → (vector : Nat) → Access (List UInt8)
  /-- `str::from_utf8_unchecked`. -/
  fromUtf8Unchecked : List UInt8 → String

/-- What is used of `flatbuffers`. -/
structure Flatbuffers where
  Builder : Type
  withCapacity : UInt64 → Builder
  reset : Builder → Builder
  /-- The objects, the table with these slots in it, and `finish_minimal`. -/
  finish : Builder → List FlatObject → List (UInt16 × FlatField) → Builder × List UInt8
  tables : FlatTables

/-- A slot that a table may have. -/
def FlatSlot (slot : UInt16) : Prop := 4 ≤ slot.toNat ∧ slot.toNat % 2 = 0 ∧ slot.toNat ≤ 8000

instance (slot : UInt16) : Decidable (FlatSlot slot) := inferInstanceAs (Decidable (_ ∧ _))

/-- A table that can be built: its slots are numbered by twos from four, each pushed once, its
offsets are those of objects, and it is far from the 64 KiB that it may have. -/
structure FlatTable (objects : List FlatObject) (fields : List (UInt16 × FlatField)) : Prop where
  distinct : (fields.map Prod.fst).Nodup
  slots : ∀ field ∈ fields, FlatSlot field.1
  offsets : ∀ slot i, (slot, FlatField.offset i) ∈ fields → i < objects.length
  small : fields.length ≤ 4000

/-- The root table of the buffer is read as these slots, and as the default in all others. -/
structure Flatbuffers.ReadsAs (lib : Flatbuffers) (buf : List UInt8) (objects : List FlatObject)
    (fields : List (UInt16 × FlatField)) : Prop where
  root : 4 ≤ buf.length
  u64 : ∀ slot v default, (slot, FlatField.u64 v) ∈ fields →
    (lib.tables.getU64 buf (ofLE (buf.take 4)) slot default).result = some (some v)
  u8 : ∀ slot v default, (slot, FlatField.u8 v) ∈ fields →
    (lib.tables.getU8 buf (ofLE (buf.take 4)) slot default).result = some (some v)
  string : ∀ slot i s default, (slot, FlatField.offset i) ∈ fields →
    objects[i]? = some (.string s) →
    (lib.tables.getString buf (ofLE (buf.take 4)) slot default).result = some (some s)
  vector : ∀ slot i bs default, (slot, FlatField.offset i) ∈ fields →
    objects[i]? = some (.vector bs) → ∃ place,
      (lib.tables.getVector buf (ofLE (buf.take 4)) slot default).result = some (some place) ∧
      (lib.tables.bytes buf place).result = some bs
  absent64 : ∀ slot default, FlatSlot slot → slot ∉ fields.map Prod.fst →
    (lib.tables.getU64 buf (ofLE (buf.take 4)) slot default).result = some default
  absent8 : ∀ slot default, FlatSlot slot → slot ∉ fields.map Prod.fst →
    (lib.tables.getU8 buf (ofLE (buf.take 4)) slot default).result = some default

/-- `reset` leaves nothing of what was built before. -/
structure Flatbuffers.Documented (lib : Flatbuffers) : Prop where
  reset : ∀ b b' objects fields,
    (lib.finish (lib.reset b) objects fields).2 = (lib.finish (lib.reset b') objects fields).2
  reads : ∀ b objects fields, FlatTable objects fields →
    (lib.finish (lib.reset b) objects fields).2.length ≤ presetLimit →
    lib.ReadsAs (lib.finish (lib.reset b) objects fields).2 objects fields

def SEQ : UInt16 := 4
def TS : UInt16 := 6
def SOURCE : UInt16 := 8
def KIND : UInt16 := 10
def PAYLOAD : UInt16 := 12

def kindToU8 : Kind → UInt8
  | .info => 0
  | .warn => 1
  | .error => 2
  | .metric => 3

def kindFromU8 (v : UInt8) : Kind :=
  if v = 1 then .warn
  else if v = 2 then .error
  else if v = 3 then .metric
  else .info

@[simp] theorem kindFromU8_kindToU8 (kind : Kind) : kindFromU8 (kindToU8 kind) = kind := by
  cases kind <;> rfl

/-- `push_slot`: a default is left out. -/
def pushSlot {α : Type} [DecidableEq α] (slot : UInt16) (field : α → FlatField) (v default : α) :
    List (UInt16 × FlatField) :=
  if v = default then [] else [(slot, field v)]

/-- The slots of an event, whose source and payload are the objects. -/
def flatFields (seq ts : UInt64) (kind : Kind) : List (UInt16 × FlatField) :=
  pushSlot SEQ .u64 seq 0 ++ pushSlot TS .u64 ts 0 ++ [(SOURCE, .offset 0)] ++
    pushSlot KIND .u8 (kindToU8 kind) 0 ++ [(PAYLOAD, .offset 1)]

/-- `FlatCodec::decode_into`. -/
def flatDecode (lib : FlatTables) (raw : List UInt8) (out : DecodedEvent) :
    Access (DecodedEvent × Bool) :=
  if raw.length < 4 then return (out, false)
  else do
    let root ← Access.slice raw 0 4
    let rootOff := ofLE root
    let seq ← lib.getU64 raw rootOff SEQ (some 0)
    let out := { out with seq := seq.getD 0 }
    let ts ← lib.getU64 raw rootOff TS (some 0)
    let out := { out with timestamp := ts.getD 0 }
    let source ← lib.getString raw rootOff SOURCE (some "")
    let out := { out with source := source.getD "" }
    let kind ← lib.getU8 raw rootOff KIND (some 0)
    let out := { out with kind := kindFromU8 (kind.getD 0) }
    match ← lib.getVector raw rootOff PAYLOAD none with
    | none => return (out, false)
    | some payload => do
      let payload ← lib.bytes raw payload
      return ({ out with payload := payload }, true)

/-- `FlatCodec`. -/
def flatCodec (lib : Flatbuffers) : Codec lib.Builder where
  new := fun cfg => lib.withCapacity (cfg.slotSize + 256)
  encode := fun c seq ts source kind payload dst =>
    let (fbb, data) :=
      lib.finish (lib.reset c) [.string source, .vector payload] (flatFields seq ts kind)
    .ok (fbb, dst ++ data)
  decodeInto := fun c raw out =>
    match (flatDecode lib.tables raw out).result with
    | some r => (c, r)
    -- a panic returns nothing; a codec that reads its own encodings does not come here
    | none => (c, out, false)

/-! ### Slots with a default -/

theorem mem_pushSlot {α : Type} [DecidableEq α] {slot : UInt16} {field : α → FlatField}
    {v default : α} {f : UInt16 × FlatField} :
    f ∈ pushSlot slot field v default ↔ v ≠ default ∧ f = (slot, field v) := by
  unfold pushSlot
  split <;> simp_all

theorem map_pushSlot {α : Type} [DecidableEq α] (slot : UInt16) (field : α → FlatField)
    (v default : α) :
    (pushSlot slot field v default).map Prod.fst = if v = default then [] else [slot] := by
  unfold pushSlot
  split <;> rfl

theorem flatFields_slots (seq ts : UInt64) (kind : Kind) :
    ((flatFields seq ts kind).map Prod.fst).Sublist [SEQ, TS, SOURCE, KIND, PAYLOAD] := by
  have hpush : ∀ {v : Prop} [Decidable v] (slot : UInt16),
      (if v then [] else [slot]).Sublist [slot] := by
    intro v _ slot
    split <;> simp
  simp only [flatFields, List.map_append, map_pushSlot]
  exact ((((hpush SEQ).append (hpush TS)).append (List.Sublist.refl _)).append (hpush KIND)).append
    (List.Sublist.refl _)

theorem flatTable_flatFields (seq ts : UInt64) (source : String) (kind : Kind)
    (payload : List UInt8) :
    FlatTable [.string source, .vector payload] (flatFields seq ts kind) := by
  have hslots := flatFields_slots seq ts kind
  refine ⟨hslots.nodup (by decide), ?_, ?_, ?_⟩
  · intro f hf
    have hall : ∀ slot ∈ [SEQ, TS, SOURCE, KIND, PAYLOAD], FlatSlot slot := by
      simp [FlatSlot, SEQ, TS, SOURCE, KIND, PAYLOAD]
    exact hall f.1 (hslots.subset (List.mem_map_of_mem hf))
  · intro slot i hf
    simp only [flatFields, List.mem_append, mem_pushSlot, List.mem_singleton] at hf
    rcases hf with (((⟨_, h⟩ | ⟨_, h⟩) | h) | ⟨_, h⟩) | h <;> cases h <;> simp
  · have hlen := hslots.length_le
    rw [List.length_map] at hlen
    exact Nat.le_trans hlen (by decide)

section Read

variable {lib : Flatbuffers} {buf : List UInt8} {seq ts : UInt64} {source : String} {kind : Kind}
  {payload : List UInt8}

/-- A number is read whether it was pushed or left out. -/
theorem read_pushed {α : Type} {field : α → FlatField} {v default : α} {slot : UInt16}
    {fields : List (UInt16 × FlatField)} {found : Option (Option α)}
    (hpushed : (slot, field v) ∈ fields → found = some (some v))
    (habsent : slot ∉ fields.map Prod.fst → found = some (some default))
    (hin : v ≠ default → (slot, field v) ∈ fields)
    (hout : v = default → slot ∉ fields.map Prod.fst) :
    found = some (some v) := by
  by_cases hv : v = default
  · rw [habsent (hout hv), hv]
  · exact hpushed (hin hv)

theorem flatDecode_reads
    (h : lib.ReadsAs buf [.string source, .vector payload] (flatFields seq ts kind))
    (out : DecodedEvent) :
    (flatDecode lib.tables buf out).result = some (⟨seq, ts, source, kind, payload⟩, true) := by
  have hroot : (Access.slice buf 0 4).result = some (buf.take 4) :=
    (Access.exactly_slice buf 0 4).result_of h.root
  have hseq : (lib.tables.getU64 buf (ofLE (buf.take 4)) SEQ (some 0)).result =
      some (some seq) := by
    apply read_pushed (h.u64 _ _ _) (h.absent64 _ _ (by decide))
    · intro hv
      simp [flatFields, mem_pushSlot, hv]
    · rintro rfl
      simp [flatFields, map_pushSlot, SEQ, TS, SOURCE, KIND, PAYLOAD]
  have hts : (lib.tables.getU64 buf (ofLE (buf.take 4)) TS (some 0)).result = some (some ts) := by
    apply read_pushed (h.u64 _ _ _) (h.absent64 _ _ (by decide))
    · intro hv
      simp [flatFields, mem_pushSlot, hv]
    · rintro rfl
      simp [flatFields, map_pushSlot, SEQ, TS, SOURCE, KIND, PAYLOAD]
  have hkind : (lib.tables.getU8 buf (ofLE (buf.take 4)) KIND (some 0)).result =
      some (some (kindToU8 kind)) := by
    apply read_pushed (h.u8 _ _ _) (h.absent8 _ _ (by decide))
    · intro hv
      simp [flatFields, mem_pushSlot, hv]
    · intro hv
      simp [flatFields, map_pushSlot, hv, SEQ, TS, SOURCE, KIND, PAYLOAD]
  have hsource : (lib.tables.getString buf (ofLE (buf.take 4)) SOURCE (some "")).result =
      some (some source) := h.string SOURCE 0 source _ (by simp [flatFields]) rfl
  obtain ⟨place, hvector, hbytes⟩ := h.vector PAYLOAD 1 payload none (by simp [flatFields]) rfl
  simp only [flatDecode, if_neg (Nat.not_lt.mpr h.root), Access.result_bind, hroot,
    hseq, hts, hkind, hsource, hvector, hbytes, Option.bind_some, Option.getD_some,
    kindFromU8_kindToU8, Access.result_pure]

theorem flatCodec_reads
    (h : lib.ReadsAs buf [.string source, .vector payload] (flatFields seq ts kind))
    (c : lib.Builder) (out : DecodedEvent) :
    (flatCodec lib).decodeInto c buf out = (c, ⟨seq, ts, source, kind, payload⟩, true) := by
  simp only [flatCodec, flatDecode_reads h out]

end Read

variable {lib : Flatbuffers}

theorem flatCodec_lossless (h : lib.Documented) : (flatCodec lib).Lossless := by
  intro ev
  have hdata : ∀ b b', (lib.finish (lib.reset b) [.string ev.source, .vector ev.payload]
      (flatFields ev.seq ev.timestamp ev.kind)).2 = (lib.finish (lib.reset b')
      [.string ev.source, .vector ev.payload] (flatFields ev.seq ev.timestamp ev.kind)).2 :=
    fun b b' => h.reset b b' _ _
  refine ⟨fun cfg => (lib.finish (lib.reset (lib.withCapacity (cfg.slotSize + 256)))
    [.string ev.source, .vector ev.payload] (flatFields ev.seq ev.timestamp ev.kind)).2, ?_,
    fun cfg cfg' _ _ => hdata _ _, ?_⟩
  · intro cfg c dst _
    refine ⟨(lib.finish (lib.reset c) [.string ev.source, .vector ev.payload]
      (flatFields ev.seq ev.timestamp ev.kind)).1, ?_⟩
    simp only [flatCodec]
    rw [hdata]
  · intro cfg cfg' c out hfits _
    exact ⟨c, flatCodec_reads (h.reads _ _ _
      (flatTable_flatFields ev.seq ev.timestamp ev.source ev.kind ev.payload) hfits) c out⟩

/-! ### When it fails -/

variable {tables : FlatTables} {raw : List UInt8} {out : DecodedEvent}

/-- The payload is looked for, after the other slots were read as these, and it is not there. -/
structure FlatTables.PayloadMissing (tables : FlatTables) (raw : List UInt8)
    (seq ts : Option UInt64) (source : Option String) (kind : Option UInt8) : Prop where
  root : 4 ≤ raw.length
  seq : (tables.getU64 raw (ofLE (raw.take 4)) SEQ (some 0)).result = some seq
  ts : (tables.getU64 raw (ofLE (raw.take 4)) TS (some 0)).result = some ts
  source : (tables.getString raw (ofLE (raw.take 4)) SOURCE (some "")).result = some source
  kind : (tables.getU8 raw (ofLE (raw.take 4)) KIND (some 0)).result = some kind
  payload : (tables.getVector raw (ofLE (raw.take 4)) PAYLOAD none).result = some none

theorem flatDecode_err_iff {out' : DecodedEvent} :
    (flatDecode tables raw out).result = some (out', false) ↔ raw.length < 4 ∧ out' = out ∨
      ∃ seq ts source kind, tables.PayloadMissing raw seq ts source kind ∧
        out' = ⟨seq.getD 0, ts.getD 0, source.getD "", kindFromU8 (kind.getD 0), out.payload⟩ := by
  by_cases hshort : raw.length < 4
  · have hend : flatDecode tables raw out = pure (out, false) := if_pos hshort
    rw [hend, Access.result_pure, Option.some.injEq, Prod.mk.injEq]
    constructor
    · exact fun h => .inl ⟨hshort, h.1.symm⟩
    · rintro (⟨-, rfl⟩ | ⟨_, _, _, _, hmissing, _⟩)
      · exact ⟨rfl, rfl⟩
      · exact absurd hmissing.root (Nat.not_le.mpr hshort)
  have hroot : (Access.slice raw 0 4).result = some (raw.take 4) :=
    (Access.exactly_slice raw 0 4).result_of (Nat.not_lt.mp hshort)
  simp only [hshort, false_and, false_or]
  simp only [flatDecode, if_neg hshort, Access.result_bind, hroot, Option.bind_some,
    Option.bind_eq_some_iff]
  constructor
  · rintro ⟨seq, hseq, ts, hts, source, hsource, kind, hkind, vector, hvector, hend⟩
    cases vector with
    | none =>
      obtain ⟨rfl, -⟩ := Prod.mk.inj (Option.some.inj hend)
      exact ⟨seq, ts, source, kind, ⟨Nat.not_lt.mp hshort, hseq, hts, hsource, hkind, hvector⟩, rfl⟩
    | some place =>
      -- with a payload the call returns `Ok`
      simp [Access.result_bind, Access.result_pure, Option.bind_eq_some_iff] at hend
  · rintro ⟨seq, ts, source, kind, h, rfl⟩
    exact ⟨seq, h.seq, ts, h.ts, source, h.source, kind, h.kind, none, h.payload, rfl⟩

/-- No call comes to a missing payload, or `out` already was what the other slots say. -/
def FlatTables.Harmless (tables : FlatTables) (raw : List UInt8) (out : DecodedEvent) : Prop :=
  ∀ seq ts source kind, tables.PayloadMissing raw seq ts source kind →
    out.seq = seq.getD 0 ∧ out.timestamp = ts.getD 0 ∧ out.source = source.getD "" ∧
      out.kind = kindFromU8 (kind.getD 0)

theorem flatDecode_untouched_iff :
    (∀ out', (flatDecode tables raw out).result = some (out', false) → out' = out) ↔
      tables.Harmless raw out := by
  simp only [flatDecode_err_iff]
  constructor
  · intro h seq ts source kind hmissing
    have heq := h _ (.inr ⟨seq, ts, source, kind, hmissing, rfl⟩)
    rw [← heq]
    exact ⟨rfl, rfl, rfl, rfl⟩
  · rintro h out' (⟨-, rfl⟩ | ⟨seq, ts, source, kind, hmissing, rfl⟩)
    · rfl
    · obtain ⟨hseq, hts, hsource, hkind⟩ := h seq ts source kind hmissing
      rw [← hseq, ← hts, ← hsource, ← hkind]

end ShmMpsc
