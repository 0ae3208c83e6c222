import ShmMpsc.Lib.Wire
import ShmMpsc.Lib.Utf8
import ShmMpsc.Proto.Flat

/-!
# Building FlatBuffers

The builder writes from the end of the buffer to its front: the objects, then the table with its
slots and before it the table of their offsets, then the offset of the table. What has been
written keeps its distance from the end, so that is how places are named here.
-/

namespace ShmMpsc

set_option autoImplicit false

namespace FlatWire

/-! ### Places counted from the end -/

/-- The bytes stand `r` bytes before the end. -/
def Ends (buf : List UInt8) (r : Nat) (bs : List UInt8) : Prop :=
  ∃ back, (bs ++ back) <:+ buf ∧ bs.length + back.length = r

variable {buf buf' bs bs' : List UInt8} {r : Nat}

theorem Ends.mono (h : Ends buf r bs) (hsuffix : buf <:+ buf') : Ends buf' r bs := by
  obtain ⟨back, hback, hr⟩ := h
  exact ⟨back, hback.trans hsuffix, hr⟩

theorem Ends.le (h : Ends buf r bs) : r ≤ buf.length := by
  obtain ⟨back, hback, rfl⟩ := h
  have hlen := hback.length_le
  rwa [List.length_append] at hlen

theorem ends_append (bs back : List UInt8) : Ends (bs ++ back) (bs ++ back).length bs :=
  ⟨back, List.suffix_refl _, by rw [List.length_append]⟩

theorem Ends.left (h : Ends buf r (bs ++ bs')) : Ends buf r bs := by
  obtain ⟨back, hback, hr⟩ := h
  refine ⟨bs' ++ back, by rwa [← List.append_assoc], ?_⟩
  rw [List.length_append] at hr ⊢
  omega

theorem Ends.right (h : Ends buf r (bs ++ bs')) : Ends buf (r - bs.length) bs' := by
  obtain ⟨back, hback, hr⟩ := h
  rw [List.append_assoc] at hback
  refine ⟨back, (List.suffix_append bs _).trans hback, ?_⟩
  rw [List.length_append] at hr
  omega

theorem Ends.slice (h : Ends buf r bs) {n : Nat} (hn : bs.length = n) :
    slice buf (buf.length - r) n = some bs := by
  obtain ⟨back, ⟨front, rfl⟩, rfl⟩ := h
  have hplace : (front ++ (bs ++ back)).length - (bs.length + back.length) = front.length := by
    simp only [List.length_append]
    omega
  rw [hplace, slice_right rfl (Nat.le_refl _), Nat.sub_self]
  exact slice_left hn back

/-! ### Building -/

structure Fbb where
  bytes : List UInt8
  minAlign : Nat

def Fbb.empty : Fbb := ⟨[], 1⟩

/-- Bytes by which a size falls short of a multiple of the alignment. -/
def paddingBytes (size alignment : Nat) : Nat := (alignment - size % alignment) % alignment

/-- Room so that what comes next, of `len` bytes, is aligned. -/
def Fbb.align (b : Fbb) (len alignment : Nat) : Fbb where
  bytes := List.replicate (paddingBytes (b.bytes.length + len) alignment) 0 ++ b.bytes
  minAlign := max b.minAlign alignment

def Fbb.write (b : Fbb) (bs : List UInt8) : Fbb := { b with bytes := bs ++ b.bytes }

/-- A scalar is aligned to its size. -/
def Fbb.push (b : Fbb) (bs : List UInt8) : Fbb := (b.align bs.length bs.length).write bs

/-- Bytes after their number. -/
def block (bs : List UInt8) : List UInt8 := toLE 4 bs.length ++ bs

/-- A string has a zero after it, which its length does not count. -/
def Fbb.create (b : Fbb) : FlatObject → Fbb
  | .string s =>
    ((b.align ((utf8 s).length + 1) 4).write (utf8 s ++ [0])).push (toLE 4 (utf8 s).length)
  | .vector bs => ((b.align bs.length 4).write bs).push (toLE 4 bs.length)

/-- With the places of the objects. -/
def Fbb.createAll (b : Fbb) : List FlatObject → Fbb × List Nat
  | [] => (b, [])
  | o :: objects =>
    let (b', places) := (b.create o).createAll objects
    (b', (b.create o).bytes.length :: places)

def Fbb.pushOffset (b : Fbb) (place : Nat) : Fbb :=
  let b := b.align 4 4
  b.write (toLE 4 (b.bytes.length + 4 - place))

def Fbb.pushField (b : Fbb) (places : List Nat) : FlatField → Fbb
  | .u64 v => b.push (toLE 8 v.toNat)
  | .u8 v => b.push [v]
  | .offset i => b.pushOffset (places[i]?.getD 0)

/-- With the places of the slots. -/
def Fbb.pushAll (b : Fbb) (places : List Nat) :
    List (UInt16 × FlatField) → Fbb × List (UInt16 × Nat)
  | [] => (b, [])
  | (slot, f) :: fields =>
    let (b', locs) := (b.pushField places f).pushAll places fields
    (b', (slot, (b.pushField places f).bytes.length) :: locs)

/-- Size of the table of offsets. -/
def vtableLen : List (UInt16 × Nat) → Nat
  | [] => 4
  | (slot, _) :: locs => max (slot.toNat + 2) (vtableLen locs)

/-- Where a slot is in the table, zero if nowhere. -/
def entryOf (object : Nat) : List (UInt16 × Nat) → Nat → Nat
  | [], _ => 0
  | (slot, loc) :: locs, n => if slot.toNat = n then object - loc else entryOf object locs n

def vtable (object start : Nat) (locs : List (UInt16 × Nat)) : List UInt8 :=
  toLE 2 (vtableLen locs) ++ (toLE 2 (object - start) ++
    (List.range ((vtableLen locs - 4) / 2)).flatMap fun i => toLE 2
      (entryOf object locs (4 + 2 * i)))

/-- With the place of the table, whose own first field is its distance from the offsets before. -/
def Fbb.endTable (b : Fbb) (start : Nat) (locs : List (UInt16 × Nat)) : Fbb × Nat :=
  let b := b.push (toLE 4 (vtableLen locs))
  (b.write (vtable b.bytes.length start locs), b.bytes.length)

def Fbb.finishMinimal (b : Fbb) (object : Nat) : Fbb := (b.align 4 b.minAlign).pushOffset object

def Fbb.finish (b : Fbb) (objects : List FlatObject) (fields : List (UInt16 × FlatField)) : Fbb :=
  let (b, places) := b.createAll objects
  let start := b.bytes.length
  let (b, locs) := b.pushAll places fields
  let (b, object) := b.endTable start locs
  b.finishMinimal object

/-! ### What was built -/

theorem paddingBytes_lt (size : Nat) {alignment : Nat} (h : 0 < alignment) :
    paddingBytes size alignment < alignment := Nat.mod_lt _ h

@[simp] theorem write_bytes (b : Fbb) (bs : List UInt8) : (b.write bs).bytes = bs ++ b.bytes := rfl

theorem align_suffix (b : Fbb) (len alignment : Nat) : b.bytes <:+ (b.align len alignment).bytes :=
  List.suffix_append _ _

theorem align_length (b : Fbb) (len alignment : Nat) : (b.align len alignment).bytes.length =
    paddingBytes (b.bytes.length + len) alignment + b.bytes.length := by
  simp [Fbb.align]

theorem push_suffix (b : Fbb) (bs : List UInt8) : b.bytes <:+ (b.push bs).bytes :=
  (align_suffix b _ _).trans (List.suffix_append _ _)

theorem ends_push (b : Fbb) (bs : List UInt8) :
    Ends (b.push bs).bytes (b.push bs).bytes.length bs :=
  ends_append bs _

/-- Aligned bytes are followed by their number without a gap. -/
theorem push_of_aligned {b : Fbb} (h : b.bytes.length % 4 = 0) (n : Nat) :
    (b.push (toLE 4 n)).bytes = toLE 4 n ++ b.bytes := by
  have hpad : paddingBytes (b.bytes.length + 4) 4 = 0 := by
    unfold paddingBytes
    omega
  simp [Fbb.push, Fbb.align, hpad]

theorem aligned_write (b : Fbb) {bs : List UInt8} {n : Nat} (hn : bs.length = n) :
    ((b.align n 4).write bs).bytes.length % 4 = 0 := by
  rw [write_bytes, List.length_append, align_length, hn, paddingBytes]
  omega

def contents : FlatObject → List UInt8
  | .string s => utf8 s
  | .vector bs => bs

theorem ends_create (b : Fbb) (o : FlatObject) : b.bytes <:+ (b.create o).bytes ∧
    Ends (b.create o).bytes (b.create o).bytes.length (block (contents o)) := by
  cases o with
  | string s =>
    have halign : ((b.align ((utf8 s).length + 1) 4).write (utf8 s ++ [0])).bytes.length % 4 = 0 :=
      aligned_write b List.length_append
    have hbytes : (b.create (.string s)).bytes =
        block (utf8 s) ++ ([0] ++ (b.align ((utf8 s).length + 1) 4).bytes) := by
      rw [Fbb.create, push_of_aligned halign, write_bytes, block, List.append_assoc,
        List.append_assoc]
    rw [hbytes]
    refine ⟨?_, ends_append _ _⟩
    exact (align_suffix b _ _).trans ((List.suffix_append _ _).trans (List.suffix_append _ _))
  | vector bs =>
    have halign : ((b.align bs.length 4).write bs).bytes.length % 4 = 0 := aligned_write b rfl
    have hbytes : (b.create (.vector bs)).bytes = block bs ++ (b.align bs.length 4).bytes := by
      rw [Fbb.create, push_of_aligned halign, write_bytes, block, List.append_assoc]
    rw [hbytes]
    exact ⟨(align_suffix b _ _).trans (List.suffix_append _ _), ends_append _ _⟩

theorem createAll_spec (b : Fbb) (objects : List FlatObject) :
    b.bytes <:+ (b.createAll objects).1.bytes ∧ ∀ (i : Nat) (o : FlatObject), objects[i]? = some o →
      ∃ place, (b.createAll objects).2[i]? = some place ∧
        Ends (b.createAll objects).1.bytes place (block (contents o)) := by
  induction objects generalizing b with
  | nil => exact ⟨List.suffix_refl _, by simp⟩
  | cons o objects ih =>
    obtain ⟨hsuffix, hends⟩ := ends_create b o
    obtain ⟨hrest, hall⟩ := ih (b.create o)
    refine ⟨hsuffix.trans hrest, ?_⟩
    intro i o' hi
    cases i with
    | zero =>
      obtain rfl : o = o' := by simpa using hi
      exact ⟨_, rfl, hends.mono hrest⟩
    | succ i => exact hall i o' (by simpa using hi)

/-! ### The table -/

/-- What stands in a slot at this place. -/
def slotBytes (places : List Nat) (loc : Nat) : FlatField → List UInt8
  | .u64 v => toLE 8 v.toNat
  | .u8 v => [v]
  | .offset i => toLE 4 (loc - places[i]?.getD 0)

theorem pushOffset_bytes (b : Fbb) (place : Nat) : ∃ pad < 4, (b.pushOffset place).bytes =
    toLE 4 ((b.pushOffset place).bytes.length - place) ++ (List.replicate pad 0 ++ b.bytes) := by
  refine ⟨paddingBytes (b.bytes.length + 4) 4, paddingBytes_lt _ (by decide), ?_⟩
  have hlen : (b.pushOffset place).bytes.length = (b.align 4 4).bytes.length + 4 := by
    simp only [Fbb.pushOffset, write_bytes, List.length_append, toLE_length]
    omega
  rw [hlen]
  rfl

theorem pushField_spec (b : Fbb) (places : List Nat) (f : FlatField) :
    b.bytes <:+ (b.pushField places f).bytes ∧
      (b.pushField places f).bytes.length ≤ b.bytes.length + 16 ∧
      b.bytes.length < (b.pushField places f).bytes.length ∧
      Ends (b.pushField places f).bytes (b.pushField places f).bytes.length
        (slotBytes places (b.pushField places f).bytes.length f) := by
  have hpush : ∀ bs : List UInt8, 0 < bs.length → bs.length ≤ 8 →
      (b.push bs).bytes.length ≤ b.bytes.length + 16 ∧
        b.bytes.length < (b.push bs).bytes.length := by
    intro bs hpos hle
    have hpad := paddingBytes_lt (b.bytes.length + bs.length) hpos
    simp only [Fbb.push, write_bytes, List.length_append, align_length]
    omega
  cases f with
  | u64 v =>
    obtain ⟨hle, hlt⟩ := hpush (toLE 8 v.toNat) (by simp) (by simp)
    exact ⟨push_suffix b _, hle, hlt, ends_push b _⟩
  | u8 v =>
    obtain ⟨hle, hlt⟩ := hpush [v] (by simp) (by simp)
    exact ⟨push_suffix b _, hle, hlt, ends_push b _⟩
  | offset i =>
    obtain ⟨pad, hpad, hbytes⟩ := pushOffset_bytes b (places[i]?.getD 0)
    have hlen := congrArg List.length hbytes
    simp only [List.length_append, toLE_length, List.length_replicate] at hlen
    refine ⟨?_, ?_, ?_, ?_⟩
    · rw [Fbb.pushField, hbytes]
      exact (List.suffix_append _ _).trans (List.suffix_append _ _)
    · rw [Fbb.pushField]
      omega
    · rw [Fbb.pushField]
      omega
    · have hends := ends_append (toLE 4 ((b.pushOffset (places[i]?.getD 0)).bytes.length -
        places[i]?.getD 0)) (List.replicate pad 0 ++ b.bytes)
      rw [← hbytes] at hends
      exact hends

theorem pushAll_spec (b : Fbb) (places : List Nat) (fields : List (UInt16 × FlatField)) :
    b.bytes <:+ (b.pushAll places fields).1.bytes ∧
      (b.pushAll places fields).1.bytes.length ≤ b.bytes.length + 16 * fields.length ∧
      (b.pushAll places fields).2.map Prod.fst = fields.map Prod.fst ∧
      (∀ loc ∈ (b.pushAll places fields).2,
        b.bytes.length < loc.2 ∧ loc.2 ≤ (b.pushAll places fields).1.bytes.length) ∧
      ∀ slot f, (slot, f) ∈ fields → ∃ loc, (slot, loc) ∈ (b.pushAll places fields).2 ∧
        Ends (b.pushAll places fields).1.bytes loc (slotBytes places loc f) := by
  induction fields generalizing b with
  | nil => exact ⟨List.suffix_refl _, Nat.le_refl _, rfl, by simp [Fbb.pushAll], by simp⟩
  | cons field fields ih =>
    obtain ⟨slot, f⟩ := field
    obtain ⟨hsuffix, hle, hlt, hends⟩ := pushField_spec b places f
    obtain ⟨hrest, hlen, hslots, hlocs, hall⟩ := ih (b.pushField places f)
    refine ⟨hsuffix.trans hrest, ?_, ?_, ?_, ?_⟩
    · rw [List.length_cons, Fbb.pushAll]
      dsimp only
      omega
    · rw [Fbb.pushAll]
      dsimp only
      rw [List.map_cons, List.map_cons, hslots]
    · intro loc hloc
      rw [Fbb.pushAll] at hloc ⊢
      dsimp only at hloc ⊢
      rcases List.mem_cons.mp hloc with rfl | hloc
      · exact ⟨hlt, hrest.length_le⟩
      · obtain ⟨hlo, hhi⟩ := hlocs loc hloc
        exact ⟨by omega, hhi⟩
    · intro slot' f' hmem
      rw [Fbb.pushAll]
      dsimp only
      rcases List.mem_cons.mp hmem with heq | hmem
      · obtain ⟨rfl, rfl⟩ := Prod.mk.inj heq
        exact ⟨_, List.mem_cons_self .., hends.mono hrest⟩
      · obtain ⟨loc, hloc, hends'⟩ := hall slot' f' hmem
        exact ⟨loc, List.mem_cons_of_mem _ hloc, hends'⟩

/-! ### The offsets -/

theorem slice_flatMap {α : Type} {f : α → List UInt8} {k : Nat} (hf : ∀ x, (f x).length = k)
    {xs : List α} {i : Nat} {x : α} (h : xs[i]? = some x) :
    slice (xs.flatMap f) (k * i) k = some (f x) := by
  induction xs generalizing i with
  | nil => simp at h
  | cons y xs ih =>
    rw [List.flatMap_cons]
    cases i with
    | zero =>
      obtain rfl : y = x := by simpa using h
      exact slice_left (hf y) _
    | succ i =>
      rw [slice_right (hf y) (Nat.le_mul_of_pos_right k (Nat.succ_pos i)), Nat.mul_succ,
        Nat.add_sub_cancel]
      exact ih (by simpa using h)

theorem Ends.slice_within (h : Ends buf r bs) {a n : Nat} {x : List UInt8}
    (hx : ShmMpsc.slice bs a n = some x) : ShmMpsc.slice buf (buf.length - r + a) n = some x := by
  have hfit : a + n ≤ bs.length := by
    unfold ShmMpsc.slice at hx
    split at hx
    · assumption
    · cases hx
  obtain ⟨back, ⟨front, rfl⟩, rfl⟩ := h
  have hplace : (front ++ (bs ++ back)).length - (bs.length + back.length) + a =
      front.length + a := by
    simp only [List.length_append]
    omega
  rw [hplace, slice_right rfl (Nat.le_add_right _ _), Nat.add_sub_cancel_left, ← hx]
  unfold ShmMpsc.slice
  rw [if_pos hfit, if_pos (by rw [List.length_append]; omega),
    List.drop_append_of_le_length (by omega),
    List.take_append_of_le_length (by rw [List.length_drop]; omega)]

variable {locs : List (UInt16 × Nat)} {object start : Nat} {slot : UInt16}

theorem vtableLen_spec (h : ∀ loc ∈ locs, FlatSlot loc.1) :
    4 ≤ vtableLen locs ∧ vtableLen locs % 2 = 0 ∧ vtableLen locs ≤ 8002 ∧
      ∀ loc ∈ locs, loc.1.toNat + 2 ≤ vtableLen locs := by
  induction locs with
  | nil => simp [vtableLen]
  | cons loc locs ih =>
    obtain ⟨hmin, heven, hmax, hall⟩ := ih fun loc' hloc => h loc' (List.mem_cons_of_mem _ hloc)
    obtain ⟨hlo, hslot, hhi⟩ := h loc (List.mem_cons_self ..)
    rw [vtableLen]
    refine ⟨by omega, by omega, by omega, ?_⟩
    intro loc' hloc
    rcases List.mem_cons.mp hloc with rfl | hloc
    · omega
    · have hle := hall loc' hloc
      omega

theorem entryOf_of_mem (hdistinct : (locs.map Prod.fst).Nodup) {loc : Nat}
    (h : (slot, loc) ∈ locs) :
    entryOf object locs slot.toNat = object - loc := by
  induction locs with
  | nil => cases h
  | cons other locs ih =>
    rw [List.map_cons, List.nodup_cons] at hdistinct
    obtain ⟨slot', loc'⟩ := other
    rw [entryOf]
    rcases List.mem_cons.mp h with heq | h
    · obtain ⟨rfl, rfl⟩ := Prod.mk.inj heq
      exact if_pos rfl
    · have hne : slot' ≠ slot := by
        intro heq
        exact hdistinct.1 (List.mem_map.mpr ⟨(slot, loc), h, heq.symm⟩)
      rw [if_neg fun heq => hne (UInt16.toNat_inj.mp heq)]
      exact ih hdistinct.2 h

theorem entryOf_of_not_mem (h : slot ∉ locs.map Prod.fst) : entryOf object locs slot.toNat = 0 := by
  induction locs with
  | nil => rfl
  | cons other locs ih =>
    rw [List.map_cons, List.mem_cons, not_or] at h
    rw [entryOf, if_neg fun heq => h.1 (UInt16.toNat_inj.mp heq).symm]
    exact ih h.2

theorem vtable_length (h : ∀ loc ∈ locs, FlatSlot loc.1) :
    (vtable object start locs).length = vtableLen locs := by
  obtain ⟨hmin, heven, _⟩ := vtableLen_spec h
  have hentries : ∀ n,
      ((List.range n).flatMap fun i => toLE 2 (entryOf object locs (4 + 2 * i))).length =
      2 * n := by
    intro n
    rw [List.length_flatMap]
    simp
    omega
  rw [vtable, List.length_append, List.length_append, toLE_length, toLE_length, hentries]
  omega

theorem slice_vtable (hslot : FlatSlot slot) (hin : slot.toNat + 2 ≤ vtableLen locs) :
    slice (vtable object start locs) slot.toNat 2 =
      some (toLE 2 (entryOf object locs slot.toNat)) := by
  obtain ⟨hlo, heven, _⟩ := hslot
  have hindex : (List.range ((vtableLen locs - 4) / 2))[(slot.toNat - 4) / 2]? =
      some ((slot.toNat - 4) / 2) := List.getElem?_range (by omega)
  have hentry := slice_flatMap (f := fun i => toLE 2 (entryOf object locs (4 + 2 * i)))
    (fun i => toLE_length 2 _) hindex
  have hback : 2 * ((slot.toNat - 4) / 2) = slot.toNat - 2 - 2 := by omega
  have hplace : 4 + (slot.toNat - 2 - 2) = slot.toNat := by omega
  rw [hback] at hentry
  rw [vtable, slice_right (toLE_length 2 _) (by omega),
    slice_right (toLE_length 2 _) (by omega), hentry, hplace]

/-- A buffer whose table stands at `object` and has its slots at `locs`. -/
structure Built (raw : List UInt8) (locs : List (UInt16 × Nat)) (object start : Nat) : Prop where
  small : raw.length ≤ presetLimit
  distinct : (locs.map Prod.fst).Nodup
  slots : ∀ loc ∈ locs, FlatSlot loc.1
  inner : ∀ loc ∈ locs, loc.2 < object ∧ object - loc.2 < 65536
  root : Ends raw raw.length (toLE 4 (raw.length - object))
  table : Ends raw object (toLE 4 (vtableLen locs))
  offsets : Ends raw (object + vtableLen locs) (vtable object start locs)

theorem entryOf_lt (h : ∀ loc ∈ locs, loc.2 < object ∧ object - loc.2 < 65536) (n : Nat) :
    entryOf object locs n < 65536 := by
  induction locs with
  | nil => simp [entryOf]
  | cons loc locs ih =>
    rw [entryOf]
    split
    · exact (h loc (List.mem_cons_self ..)).2
    · exact ih fun loc' hloc => h loc' (List.mem_cons_of_mem _ hloc)

namespace Built

variable {raw : List UInt8}

theorem root_eq (h : Built raw locs object start) : ofLE (raw.take 4) = raw.length - object := by
  have hlimit : presetLimit < 256 ^ 4 := by decide
  have hsmall := h.small
  have hroot := h.root.slice (toLE_length 4 _)
  rw [Nat.sub_self] at hroot
  unfold ShmMpsc.slice at hroot
  split at hroot
  · rw [List.drop_zero] at hroot
    rw [Option.some.inj hroot, ofLE_toLE_of_lt (by omega)]
  · cases hroot

theorem four_le (h : Built raw locs object start) : 4 ≤ raw.length := by
  obtain ⟨back, _, hr⟩ := h.root
  rw [toLE_length] at hr
  omega

end Built

/-! ### The whole buffer -/

/-- The table after the objects, of which the last starts at `start`. -/
theorem built_finish {b : Fbb} {places : List Nat} {objects : List FlatObject}
    {fields : List (UInt16 × FlatField)} (htable : FlatTable objects fields)
    (hlocs : locs = (b.pushAll places fields).2) {b' : Fbb}
    (hb' : b' = (b.pushAll places fields).1.push (toLE 4 (vtableLen locs))) {raw : List UInt8}
    (hraw : raw = ((b'.write (vtable b'.bytes.length b.bytes.length locs)).finishMinimal
      b'.bytes.length).bytes) (hsmall : raw.length ≤ presetLimit) :
    b'.bytes <:+ raw ∧ Built raw locs b'.bytes.length b.bytes.length := by
  obtain ⟨hsuffix, hle, hslots, hplaces, _⟩ := pushAll_spec b places fields
  rw [← hlocs] at hslots hplaces
  have hslot : ∀ loc ∈ locs, FlatSlot loc.1 := by
    intro loc hloc
    have hmem : loc.1 ∈ fields.map Prod.fst := hslots ▸ List.mem_map_of_mem hloc
    obtain ⟨field, hfield, heq⟩ := List.mem_map.mp hmem
    exact heq ▸ htable.slots field hfield
  have hobject : (b.pushAll places fields).1.bytes.length + 4 ≤ b'.bytes.length ∧
      b'.bytes.length ≤ (b.pushAll places fields).1.bytes.length + 8 := by
    have four_pos : 0 < 4 := by decide
    have hpad := paddingBytes_lt ((b.pushAll places fields).1.bytes.length + 4) four_pos
    rw [hb', Fbb.push, write_bytes, List.length_append, align_length, toLE_length]
    omega
  obtain ⟨pad, hpad, hbytes⟩ := pushOffset_bytes ((b'.write (vtable b'.bytes.length b.bytes.length
    locs)).align 4 (b'.write (vtable b'.bytes.length b.bytes.length locs)).minAlign) b'.bytes.length
  have hfront : (b'.write (vtable b'.bytes.length b.bytes.length locs)).bytes <:+ raw := by
    rw [hraw, Fbb.finishMinimal, hbytes]
    exact (align_suffix _ 4 _).trans ((List.suffix_append _ _).trans (List.suffix_append _ _))
  have hsuffix' : b'.bytes <:+ raw := (List.suffix_append _ _).trans hfront
  refine ⟨hsuffix', hsmall, hslots ▸ htable.distinct, hslot, ?_, ?_, ?_, ?_⟩
  · intro loc hloc
    obtain ⟨hlo, hhi⟩ := hplaces loc hloc
    have hfew := htable.small
    omega
  · have hroot := ends_append (toLE 4 (raw.length - b'.bytes.length)) (List.replicate pad 0 ++
      ((b'.write (vtable b'.bytes.length b.bytes.length locs)).align 4
        (b'.write (vtable b'.bytes.length b.bytes.length locs)).minAlign).bytes)
    rw [hraw, Fbb.finishMinimal] at hroot ⊢
    rw [← hbytes] at hroot
    exact hroot
  · have hends := ends_push (b.pushAll places fields).1 (toLE 4 (vtableLen locs))
    rw [← hb'] at hends
    exact hends.mono hsuffix'
  · have hends := ends_append (vtable b'.bytes.length b.bytes.length locs) b'.bytes
    rw [List.length_append, vtable_length hslot, Nat.add_comm] at hends
    exact hends.mono hfront

theorem finish_spec {objects : List FlatObject} {fields : List (UInt16 × FlatField)}
    (htable : FlatTable objects fields) {raw : List UInt8}
    (hraw : raw = (Fbb.empty.finish objects fields).bytes) (hsmall : raw.length ≤ presetLimit) :
    ∃ places locs object start, Built raw locs object start ∧
      locs.map Prod.fst = fields.map Prod.fst ∧
      (∀ slot f, (slot, f) ∈ fields → ∃ loc, (slot, loc) ∈ locs ∧ start < loc ∧
        Ends raw loc (slotBytes places loc f)) ∧
      (∀ (i : Nat) (o : FlatObject), objects[i]? = some o → ∃ place, places[i]? = some place ∧
        place ≤ start ∧ Ends raw place (block (contents o))) := by
  obtain ⟨_, hobjects⟩ := createAll_spec .empty objects
  obtain ⟨hsuffix, _, hslots, hplaces, hfields⟩ :=
    pushAll_spec (Fbb.empty.createAll objects).1 (Fbb.empty.createAll objects).2 fields
  obtain ⟨hraw', hbuilt⟩ := built_finish htable rfl rfl hraw hsmall
  have hpushed := (push_suffix _ _).trans hraw'
  refine ⟨(Fbb.empty.createAll objects).2, _, _, _, hbuilt, hslots, ?_, ?_⟩
  · intro slot f hf
    obtain ⟨loc, hloc, hends⟩ := hfields slot f hf
    exact ⟨loc, hloc, (hplaces _ hloc).1, hends.mono hpushed⟩
  · intro i o ho
    obtain ⟨place, hplace, hends⟩ := hobjects i o ho
    exact ⟨place, hplace, hends.le, hends.mono (hsuffix.trans hpushed)⟩

end FlatWire

/-- Of the numbers none is there. -/
example : (FlatWire.Fbb.empty.finish [.string "p", .vector [7]] (flatFields 0 0 .info)).bytes =
    [20, 0, 0, 0, 0, 0, 14, 0, 12, 0, 0, 0, 0, 0, 8, 0, 0, 0, 4, 0, 14, 0, 0, 0,
      8, 0, 0, 0, 12, 0, 0, 0, 1, 0, 0, 0, 7, 0, 0, 0, 1, 0, 0, 0, 112, 0, 0, 0] := by decide

end ShmMpsc
