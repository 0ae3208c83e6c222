import ShmMpsc.Lib.StoreBuffer
import ShmMpsc.Ring.MemSim
import ShmMpsc.System.Loops

/-!
# Sequential consistency and store buffers

The two ways the threads reach the segment: every access at once, or every `Release`
store through a FIFO of its thread. What the accesses to one field leave alone in the
others is all that the park handshake needs of the segment.
-/

namespace ShmMpsc

set_option autoImplicit false

open RingConfig

variable {ι W M : Type}

/-- Every access acts on the memory at once. -/
def sc (ops : SegOps W M) : MemModel ι W M where
  producer := fun _ => ops
  consumer := ops
  commit := fun _ _ => none

/-- A store on its way to the memory. -/
inductive Store (W : Type) where
  | seq (pos v : W)
  | len (pos : W) (v : UInt32)
  | payload (pos : W) (bs : List UInt8)
  | head (v : W)
  | state (v : UInt64)

def Store.apply (ops : SegOps W M) : Store W → M → Option M
  | .seq pos v => ops.storeSeq pos v
  | .len pos v => ops.storeLen pos v
  | .payload pos bs => ops.writePayload pos bs
  | .head v => ops.storeHead v
  | .state v => ops.storeState v

section Buffers

variable {τ : Type} [DecidableEq τ]

/-- The accesses of thread `t` behind its store buffer. -/
def SegOps.buffered (ops : SegOps W M) (t : τ) : SegOps W (Buffered τ (Store W) M) where
  maxLen := ops.maxLen
  next := ops.next
  lap := ops.lap
  diff := ops.diff
  loadTail := Buffered.load (Store.apply ops) t ops.loadTail
  casTail := fun expected new => Buffered.rmw (Store.apply ops) t (ops.casTail expected new)
  loadHead := Buffered.load (Store.apply ops) t ops.loadHead
  storeHead := fun v => Buffered.store (Store.apply ops) t (.head v)
  loadSeq := fun pos => Buffered.load (Store.apply ops) t (ops.loadSeq pos)
  storeSeq := fun pos v => Buffered.store (Store.apply ops) t (.seq pos v)
  loadLen := fun pos => Buffered.load (Store.apply ops) t (ops.loadLen pos)
  storeLen := fun pos v => Buffered.store (Store.apply ops) t (.len pos v)
  readPayload := fun pos n => Buffered.load (Store.apply ops) t (ops.readPayload pos n)
  writePayload := fun pos bs => Buffered.store (Store.apply ops) t (.payload pos bs)
  loadState := Buffered.load (Store.apply ops) t ops.loadState
  storeState := fun v => Buffered.store (Store.apply ops) t (.state v)
  casState := fun expected new => Buffered.rmw (Store.apply ops) t (ops.casState expected new)

end Buffers

abbrev TsoSystem (ι C W M : Type) := System ι C W (Buffered (Option ι) (Store W) M)

/-- Every thread has a store buffer; the consumer's is `none`'s. -/
def tso [DecidableEq ι] (ops : SegOps W M) :
    MemModel ι W (Buffered (Option ι) (Store W) M) where
  producer := fun j => ops.buffered (some j)
  consumer := ops.buffered none
  commit := Buffered.commit (Store.apply ops)

section Embedding

variable {ops : SegOps W M} {m m' : M}

/-- `b` becomes `m` once the store of thread `t` has left its buffer, if one waits. -/
def Lands {τ : Type} [DecidableEq τ] (ops : SegOps W M) (t : τ) (b : Buffered τ (Store W) M)
    (m : M) : Prop :=
  b = .flushed m ∨ b.commit (Store.apply ops) t = some (.flushed m)

variable {τ : Type} [DecidableEq τ] {t : τ}

theorem store_lands {e : Store W} (h : e.apply ops m = some m') :
    ∃ b, Buffered.store (Store.apply ops) t e (.flushed m) = some b ∧ Lands ops t b m' := by
  obtain ⟨b, hb, hc⟩ := Buffered.store_flushed (t := t) h
  exact ⟨b, hb, .inr hc⟩

@[simp] theorem buffered_loadTail : (ops.buffered t).loadTail (.flushed m) = ops.loadTail m := by
  simp only [SegOps.buffered, Buffered.load_flushed]

@[simp] theorem buffered_loadHead : (ops.buffered t).loadHead (.flushed m) = ops.loadHead m := by
  simp only [SegOps.buffered, Buffered.load_flushed]

@[simp] theorem buffered_loadSeq (pos : W) :
    (ops.buffered t).loadSeq pos (.flushed m) = ops.loadSeq pos m := by
  simp only [SegOps.buffered, Buffered.load_flushed]

@[simp] theorem buffered_loadLen (pos : W) :
    (ops.buffered t).loadLen pos (.flushed m) = ops.loadLen pos m := by
  simp only [SegOps.buffered, Buffered.load_flushed]

@[simp] theorem buffered_readPayload (pos : W) (n : Nat) :
    (ops.buffered t).readPayload pos n (.flushed m) = ops.readPayload pos n m := by
  simp only [SegOps.buffered, Buffered.load_flushed]

theorem PushTrans.buffered {spurious : Bool} {pc pc' : PushPc W} {ev : List (PushEvent W)}
    (h : PushTrans ops spurious pc m pc' m' ev) :
    ∃ b, PushTrans (ops.buffered t) spurious pc (.flushed m) pc' b ev ∧ Lands ops t b m' := by
  cases h with
  | loadTail hp => exact ⟨_, .loadTail (by simpa using hp), .inl rfl⟩
  | free hq hd => exact ⟨_, .free (by simpa using hq) hd, .inl rfl⟩
  | full hq hd => exact ⟨_, .full (by simpa using hq) hd, .inl rfl⟩
  | stale hq hd => exact ⟨_, .stale (by simpa using hq) hd, .inl rfl⟩
  | spurious hsp => exact ⟨_, .spurious hsp, .inl rfl⟩
  | won hsp hc => exact ⟨_, .won hsp (Buffered.rmw_flushed hc), .inl rfl⟩
  | lost hsp hc => exact ⟨_, .lost hsp (Buffered.rmw_flushed hc), .inl rfl⟩
  | writeLen hm =>
    obtain ⟨b, hb, hl⟩ := store_lands (t := t) (e := .len _ _) hm
    exact ⟨b, .writeLen hb, hl⟩
  | writePayload hm =>
    obtain ⟨b, hb, hl⟩ := store_lands (t := t) (e := .payload _ _) hm
    exact ⟨b, .writePayload hb, hl⟩
  | publish hm =>
    obtain ⟨b, hb, hl⟩ := store_lands (t := t) (e := .seq _ _) hm
    exact ⟨b, .publish hb, hl⟩

theorem PopTrans.buffered {pc pc' : PopPc W} {ev : List (PopEvent W)}
    (h : PopTrans ops pc m pc' m' ev) :
    ∃ b, PopTrans (ops.buffered t) pc (.flushed m) pc' b ev ∧ Lands ops t b m' := by
  cases h with
  | loadHead hh => exact ⟨_, .loadHead (by simpa using hh), .inl rfl⟩
  | empty hq hne => exact ⟨_, .empty (by simpa using hq) hne, .inl rfl⟩
  | ready hq => exact ⟨_, .ready ((buffered_loadSeq _).trans hq), .inl rfl⟩
  | readLen hl => exact ⟨_, .readLen (by simpa using hl), .inl rfl⟩
  | readPayload hb => exact ⟨_, .readPayload (by simpa using hb), .inl rfl⟩
  | release hm =>
    obtain ⟨b, hb, hl⟩ := store_lands (t := t) (e := .seq _ _) hm
    exact ⟨b, .release hb, hl⟩
  | storeHead hm =>
    obtain ⟨b, hb, hl⟩ := store_lands (t := t) (e := .head _) hm
    exact ⟨b, .storeHead hb, hl⟩

variable {C : Type} {cfg : RingConfig} {codec : Codec C}

theorem ProducerTrans.buffered {job : Job} {j : ι} {now : UInt64} {spurious : Bool}
    {p p' : Producer C W} {push push' : PushPc W} {ev : List (SysEvent ι W)}
    (h : ProducerTrans cfg codec ops job j now spurious p push m p' push' m' ev) :
    ∃ b, ProducerTrans cfg codec (ops.buffered t) job j now spurious p push (.flushed m) p' push' b
      ev ∧ Lands ops t b m' := by
  cases h with
  | encodeErr hpc hi he => exact ⟨_, .encodeErr hpc hi he, .inl rfl⟩
  | encode hpc hi he => exact ⟨_, .encode hpc hi he, .inl rfl⟩
  | finish hpc hi => exact ⟨_, .finish hpc hi, .inl rfl⟩
  | push hpc hr =>
    obtain ⟨b, hb, hl⟩ := (pushTrans_of_step hr).buffered (t := t)
    exact ⟨b, .push hpc hb.step, hl⟩
  | retry hpc => exact ⟨_, .retry hpc, .inl rfl⟩
  | won hpc hc => exact ⟨_, .won hpc (Buffered.rmw_flushed hc), .inl rfl⟩
  | lost hpc hc => exact ⟨_, .lost hpc (Buffered.rmw_flushed hc), .inl rfl⟩
  | signal hpc => exact ⟨_, .signal hpc, .inl rfl⟩
  | returned hpc hq => exact ⟨_, .returned hpc hq, .inl rfl⟩

theorem ConsumerTrans.buffered {stop : Bool} {c c' : Consumer C} {pop pop' : PopPc W}
    {ev : List (SysEvent ι W)} (h : ConsumerTrans ι codec ops stop c pop m c' pop' m' ev) :
    ∃ b, ConsumerTrans ι codec (ops.buffered t) stop c pop (.flushed m) c' pop' b ev ∧
      Lands ops t b m' := by
  cases h with
  | halt hpc hs => exact ⟨_, .halt hpc hs, .inl rfl⟩
  | top hpc hs => exact ⟨_, .top hpc hs, .inl rfl⟩
  | drain hpc hr =>
    obtain ⟨b, hb, hl⟩ := hr.buffered (t := t)
    exact ⟨b, .drain hpc hb, hl⟩
  | storeParked hpc hm =>
    obtain ⟨b, hb, hl⟩ := store_lands (t := t) (e := .state _) hm
    exact ⟨b, .storeParked hpc hb, hl⟩
  | recheck hpc hr =>
    obtain ⟨b, hb, hl⟩ := hr.buffered (t := t)
    exact ⟨b, .recheck hpc hb, hl⟩
  | storeRunningHit hpc hm =>
    obtain ⟨b, hb, hl⟩ := store_lands (t := t) (e := .state _) hm
    exact ⟨b, .storeRunningHit hpc hb, hl⟩
  | addEvents hpc => exact ⟨_, .addEvents hpc, .inl rfl⟩
  | addWire hpc => exact ⟨_, .addWire hpc, .inl rfl⟩
  | decodeDrain hpc => exact ⟨_, .decodeDrain hpc, .inl rfl⟩
  | decodeRecheck hpc => exact ⟨_, .decodeRecheck hpc, .inl rfl⟩
  | unparked hpc => exact ⟨_, .unparked hpc, .inl rfl⟩
  | storeRunning hpc hm =>
    obtain ⟨b, hb, hl⟩ := store_lands (t := t) (e := .state _) hm
    exact ⟨b, .storeRunning hpc hb, hl⟩

variable [DecidableEq ι] [DecidableEq W] {jobs : ι → Job}

/-- The same state with nothing in the buffers. -/
def System.flushed (s : System ι C W M) : TsoSystem ι C W M where
  ring := { mem := .flushed s.ring.mem, push := s.ring.push, pop := s.ring.pop }
  producer := s.producer
  consumer := s.consumer
  stop := s.stop
  token := s.token
  postedCalls := s.postedCalls

/-- A step without buffers is one behind buffers, and the way of its store to the memory. -/
theorem System.flushed_step {s s' : System ι C W M} {a : SysAction ι} {ev : List (SysEvent ι W)}
    (h : sysStep cfg codec (sc ops) jobs s a = some (s', ev)) :
    sysStep cfg codec (tso ops) jobs s.flushed a = some (s'.flushed, ev) ∨
      ∃ s1 t, sysStep cfg codec (tso ops) jobs s.flushed a = some (s1, ev) ∧
        sysStep cfg codec (tso ops) jobs s1 (.commit t) = some (s'.flushed, []) := by
  cases sysTrans_of_step h with
  | @producer j now spurious p push m _ ht =>
    obtain ⟨b, hb, hl⟩ := ht.buffered (t := some j)
    have hs : sysStep cfg codec (tso ops) jobs s.flushed (.producer j now spurious) =
        some (s.flushed.setProducer j p push b, ev) := Option.map_eq_some_iff.mpr ⟨_, hb.step, rfl⟩
    rcases hl with rfl | hc
    · exact .inl hs
    · exact .inr ⟨_, some j, hs, Option.map_eq_some_iff.mpr ⟨_, hc, rfl⟩⟩
  | @send j p hp =>
    exact .inl (Option.map_eq_some_iff.mpr ⟨p, hp.step, rfl⟩)
  | @serve j p token calls _ hp =>
    exact .inl (Option.map_eq_some_iff.mpr ⟨_, hp.step, rfl⟩)
  | @drop j hf =>
    exact .inl (if_pos hf)
  | @consumer c pop m _ ht =>
    obtain ⟨b, hb, hl⟩ := ht.buffered (t := (none : Option ι))
    have hs : sysStep cfg codec (tso ops) jobs s.flushed .consumer =
        some (s.flushed.setConsumer c pop b, ev) := Option.map_eq_some_iff.mpr ⟨_, hb.step, rfl⟩
    rcases hl with rfl | hc
    · exact .inl hs
    · exact .inr ⟨_, none, hs, Option.map_eq_some_iff.mpr ⟨_, hc, rfl⟩⟩
  | commit hm => cases hm
  | stop =>
    exact .inl rfl

end Embedding

/-- The slot of position head is published in `m`. -/
def SegOps.HeadPublished (ops : SegOps W M) (m : M) : Prop :=
  ∃ head, ops.loadHead m = some head ∧ ops.loadSeq head m = some (ops.next head)

/-- The words the handshake looks at are the same. -/
structure SegOps.Same (ops : SegOps W M) (m m' : M) : Prop where
  state : ops.loadState m' = ops.loadState m
  head : ops.loadHead m' = ops.loadHead m
  seq : ∀ pos, ops.loadSeq pos m' = ops.loadSeq pos m

theorem SegOps.Same.headPublished {ops : SegOps W M} {m m' : M} (h : ops.Same m m') :
    ops.HeadPublished m' ↔ ops.HeadPublished m := by
  simp only [HeadPublished, h.head, h.seq]

/-- No access changes a word it is not about. -/
structure SegOps.Framed (ops : SegOps W M) : Prop where
  storeSeq {pos v m m'} : ops.storeSeq pos v m = some m' →
    ops.loadState m' = ops.loadState m ∧ ops.loadHead m' = ops.loadHead m
  storeLen {pos v m m'} : ops.storeLen pos v m = some m' → ops.Same m m'
  writePayload {pos bs m m'} : bs.length ≤ ops.maxLen → ops.writePayload pos bs m = some m' →
    ops.Same m m'
  casTail {expected new m m' won} : ops.casTail expected new m = some (m', won) → ops.Same m m'
  storeHead {v m m'} : ops.storeHead v m = some m' →
    ops.loadState m' = ops.loadState m ∧ ops.loadHead m' = some v
  storeState {v m m'} : ops.storeState v m = some m' →
    ops.loadState m' = some v ∧ ops.loadHead m' = ops.loadHead m
  won {expected new m m'} : ops.casState expected new m = some (m', true) →
    ops.loadState m = some expected ∧ ops.loadState m' = some new ∧
      ops.loadHead m' = ops.loadHead m
  lost {expected new m m'} : ops.casState expected new m = some (m', false) →
    m' = m ∧ ops.loadState m ≠ some expected

section Segment

variable {cfg : RingConfig} {m m' : Memory}

theorem slotPtr_ge (hg : cfg.Admitted) (hf : cfg.Fits) (pos : UInt64) :
    192 ≤ (cfg.slotPtr pos).toNat := by
  rw [slotPtr_toNat hg hf, slotOff]
  omega

theorem slotPtr_apart (hg : cfg.Admitted) (hf : cfg.Fits) (pos pos' : UInt64) {n : Nat}
    (hn : 8 + n ≤ cfg.slotSize.toNat) :
    (cfg.slotPtr pos').toNat ≤ (cfg.slotPtr pos).toNat ∨
      (cfg.slotPtr pos).toNat + 8 + n ≤ (cfg.slotPtr pos').toNat := by
  rw [slotPtr_toNat hg hf, slotPtr_toNat hg hf]
  by_cases h : cfg.slotOf pos.toNat = cfg.slotOf pos'.toNat
  · rw [h]
    exact .inl (Nat.le_refl _)
  · rcases cfg.slotOff_apart h with h | h
    · exact .inr (by omega)
    · exact .inl (by omega)

/-- A write inside a slot, behind its seq word. -/
theorem same_of_write (hg : cfg.Admitted) (hf : cfg.Fits) {pos d : UInt64} {bs : List UInt8}
    (hd8 : 8 ≤ d.toNat) (hd16 : d.toNat ≤ 16) (hbs : d.toNat + bs.length ≤ cfg.slotSize.toNat)
    (h : m.write (cfg.slotPtr pos + d).toNat bs = some m') : (segOps cfg).Same m m' := by
  have haddr := slotPtr_add hg hf pos.toNat hd16
  rw [← slotPtr_ofNat hg hf, UInt64.ofNat_toNat] at haddr
  have hge := slotPtr_ge hg hf pos
  rw [haddr] at h
  refine ⟨Memory.load64_write h (.inl (by omega)), Memory.load64_write h (.inl (by omega)), ?_⟩
  intro pos'
  refine Memory.load64_write h ?_
  have happ := slotPtr_apart hg hf pos pos' (n := d.toNat - 8 + bs.length) (by omega)
  omega

theorem segOps_framed (hg : cfg.Admitted) (hf : cfg.Fits) : (segOps cfg).Framed where
  storeSeq {pos _ _ _} h := by
    have hge := slotPtr_ge hg hf pos
    exact ⟨Memory.load64_store64_of_disjoint h (.inl (by omega)),
      Memory.load64_store64_of_disjoint h (.inl (by omega))⟩
  storeLen h := by
    have hmin := hg.min
    exact same_of_write hg hf (d := 8) (by decide) (by decide)
      (by rw [toLE_length]; change 8 + 4 ≤ _; omega) h
  writePayload {_ bs _ _} hbs h := by
    have hmin := hg.min
    have hbs : bs.length ≤ cfg.slotSize.toNat - 20 := by rwa [← maxLen_toNat hmin]
    exact same_of_write hg hf (d := SLOT_HDR) (by decide) (by decide)
      (by change 16 + _ ≤ _; omega) h
  casTail h := by
    obtain ⟨cur, _, h⟩ := Option.bind_eq_some_iff.mp h
    split at h
    · obtain ⟨m1, hm, h⟩ := Option.map_eq_some_iff.mp h
      cases h
      refine ⟨Memory.load64_store64_of_disjoint hm (by omega),
        Memory.load64_store64_of_disjoint hm (by omega), fun pos => ?_⟩
      have hge := slotPtr_ge hg hf pos
      exact Memory.load64_store64_of_disjoint hm (by omega)
    · cases h
      exact ⟨rfl, rfl, fun _ => rfl⟩
  storeHead h :=
    ⟨Memory.load64_store64_of_disjoint h (by omega), Memory.load64_store64 h⟩
  storeState h :=
    ⟨Memory.load64_store64 h, Memory.load64_store64_of_disjoint h (by omega)⟩
  won h := by
    obtain ⟨cur, hcur, h⟩ := Option.bind_eq_some_iff.mp h
    split at h
    · rename_i heq
      obtain ⟨m1, hm, h⟩ := Option.map_eq_some_iff.mp h
      cases h
      exact ⟨heq ▸ hcur, Memory.load64_store64 hm, Memory.load64_store64_of_disjoint hm (by omega)⟩
    · cases h
  lost h := by
    obtain ⟨cur, hcur, h⟩ := Option.bind_eq_some_iff.mp h
    split at h
    · obtain ⟨m1, _, h⟩ := Option.map_eq_some_iff.mp h
      cases h
    · rename_i hne
      cases h
      refine ⟨rfl, ?_⟩
      change Memory.load64 _ 128 ≠ _
      rw [hcur]
      exact fun h => hne (Option.some.inj h)

theorem casState_running (h : m.load64 128 = some STATE_RUNNING) :
    (segOps cfg).casState STATE_PARKED STATE_RUNNING m = some (m, false) := by
  have hne : STATE_RUNNING ≠ STATE_PARKED := by decide
  simp [segOps, h, hne]

end Segment

/-! ### Runs -/

section Runs

variable {C : Type} [DecidableEq ι]

/-- A run behind store buffers, from a mapping of `total()` bytes that `init` prepared. -/
def TsoRun (cfg : RingConfig) (codec : Codec C) (jobs : ι → Job)
    (G : Machine.Guard (TsoSystem ι C UInt64 Memory) (SysAction ι) (SysEvent ι UInt64))
    (as : List (SysAction ι)) (s : TsoSystem ι C UInt64 Memory) (log : List (SysEvent ι UInt64)) :
    Prop :=
  ∃ m m', m.size = cfg.total.toNat ∧ init cfg m = some m' ∧
    (sysMachine cfg codec (tso (segOps cfg)) jobs).Run G
      (System.start cfg codec (.flushed m')) [] as s log

/-- The same with every access at once. -/
def ScRun (cfg : RingConfig) (codec : Codec C) (jobs : ι → Job)
    (G : Machine.Guard (System ι C UInt64 Memory) (SysAction ι) (SysEvent ι UInt64))
    (as : List (SysAction ι)) (s : System ι C UInt64 Memory) (log : List (SysEvent ι UInt64)) :
    Prop :=
  ∃ m m', m.size = cfg.total.toNat ∧ init cfg m = some m' ∧
    (sysMachine cfg codec (sc (segOps cfg)) jobs).Run G (System.start cfg codec m') [] as s log

end Runs

end ShmMpsc
