import Mathlib.Logic.Function.Basic
import ShmMpsc.Lib.Machine

/-!
# `push` and `try_pop`, one memory access a step

The control flow of the two functions, written once over the words and the memory
they run on (`SegOps`). A step is one atomic load, store or compare-exchange, the
length write, the payload copy, or the consumer's reads of them; the comparisons
between two accesses belong to the step before them.
-/

namespace ShmMpsc

set_option autoImplicit false

/-- The accesses to the segment. `none` is an access outside the mapping. Slots are named
by a position in them. -/
structure SegOps (W M : Type) where
  /-- `payload_capacity() - 4` -/
  maxLen : Nat
  /-- `pos + 1` -/
  next : W → W
  /-- `head + num_slots` -/
  lap : W → W
  /-- `seq as i64 - pos as i64` -/
  diff : W → W → Int
  loadTail : M → Option W
  /-- `tail.compare_exchange(expected, new)` -/
  casTail : W → W → M → Option (M × Bool)
  loadHead : M → Option W
  storeHead : W → M → Option M
  loadSeq : W → M → Option W
  storeSeq : W → W → M → Option M
  loadLen : W → M → Option UInt32
  storeLen : W → UInt32 → M → Option M
  /-- `from_raw_parts(s.add(SLOT_HDR), len)` -/
  readPayload : W → Nat → M → Option (List UInt8)
  /-- `copy_nonoverlapping(data, s.add(SLOT_HDR), data.len())` -/
  writePayload : W → List UInt8 → M → Option M
  loadState : M → Option UInt64
  storeState : UInt64 → M → Option M
  /-- `state.compare_exchange(expected, new)` -/
  casState : UInt64 → UInt64 → M → Option (M × Bool)

inductive PushErr where
  | full
  | tooBig
  deriving DecidableEq, Repr

/-- Where a `push` call stands; a constructor names the access it makes next. -/
inductive PushPc (W : Type) where
  | idle
  | loadTail (data : List UInt8)
  | loadSeq (data : List UInt8) (pos : W)
  | cas (data : List UInt8) (pos : W)
  | writeLen (data : List UInt8) (pos : W)
  | writePayload (data : List UInt8) (pos : W)
  | publish (data : List UInt8) (pos : W)
  | done (r : Except PushErr W)

/-- Where a `try_pop` call stands, with the contents of `out`. -/
inductive PopPc (W : Type) where
  | idle
  | loadHead (out : List UInt8)
  | loadSeq (out : List UInt8) (head : W)
  | readLen (out : List UInt8) (head : W)
  | readPayload (out : List UInt8) (head : W) (len : Nat)
  | release (out : List UInt8) (head : W)
  | storeHead (out : List UInt8) (head : W)
  | done (r : Option W) (out : List UInt8)

inductive PushEvent (W : Type) where
  | tailLoad
  | casFail (spurious : Bool)
  | reserve (data : List UInt8) (pos : W)
  | publish (pos : W)
  | full
  deriving DecidableEq

inductive PopEvent (W : Type) where
  | release (head : W)
  | some (pos : W) (out : List UInt8)
  | none (out : List UInt8)
  deriving DecidableEq

section Steps

variable {W M : Type}

/-- The message of a `push` under way. -/
def PushPc.data : PushPc W → Option (List UInt8)
  | .loadTail data | .loadSeq data _ | .cas data _ | .writeLen data _ | .writePayload data _
  | .publish data _ => some data
  | .idle | .done _ => none

/-- The contents of `out` where `try_pop` has not cleared it. -/
def PopPc.untouched : PopPc W → Option (List UInt8)
  | .loadHead out | .loadSeq out _ | .readLen out _ | .readPayload out _ _ | .done none out =>
    some out
  | .idle | .release _ _ | .storeHead _ _ | .done (some _) _ => none

def PushPc.ready : PushPc W → Bool
  | .idle | .done _ => true
  | _ => false

def PopPc.ready : PopPc W → Bool
  | .idle | .done _ _ => true
  | _ => false

/-- The steps of `try_pop` up to the end of a pop. -/
def PopPc.left : PopPc W → Nat
  | .loadHead _ => 6
  | .loadSeq _ _ => 5
  | .readLen _ _ => 4
  | .readPayload _ _ _ => 3
  | .release _ _ => 2
  | .storeHead _ _ => 1
  | .idle | .done _ _ => 0

/-- The position of a `try_pop` that has found its slot ready. -/
def PopPc.taking : PopPc W → Option W
  | .readLen _ head | .readPayload _ head _ | .release _ head | .storeHead _ head => some head
  | .idle | .loadHead _ | .loadSeq _ _ | .done _ _ => none

/-- Entering `push`: the size test comes before any access. -/
def pushCall (ops : SegOps W M) (data : List UInt8) : PushPc W :=
  if data.length > ops.maxLen then .done (.error .tooBig) else .loadTail data

/-- One step of `push`. `spurious` lets `compare_exchange_weak` fail on equal values. -/
def pushStep (ops : SegOps W M) (spurious : Bool) :
    PushPc W → M → Option (PushPc W × M × List (PushEvent W))
  | .loadTail data, m =>
    (ops.loadTail m).map fun pos => (.loadSeq data pos, m, [.tailLoad])
  | .loadSeq data pos, m =>
    (ops.loadSeq pos m).map fun seq =>
      let diff := ops.diff seq pos
      if diff = 0 then (.cas data pos, m, [])
      else if diff < 0 then (.done (.error .full), m, [.full])
      else (.loadTail data, m, [])
  | .cas data pos, m =>
    if spurious then some (.loadTail data, m, [.casFail true])
    else (ops.casTail pos (ops.next pos) m).map fun r =>
      if r.2 then (.writeLen data pos, r.1, [.reserve data pos])
      else (.loadTail data, r.1, [.casFail false])
  | .writeLen data pos, m =>
    (ops.storeLen pos (UInt32.ofNat data.length) m).map fun m' => (.writePayload data pos, m', [])
  | .writePayload data pos, m =>
    (ops.writePayload pos data m).map fun m' => (.publish data pos, m', [])
  | .publish _ pos, m =>
    (ops.storeSeq pos (ops.next pos) m).map fun m' => (.done (.ok pos), m', [.publish pos])
  | .idle, _ => none
  | .done _, _ => none

/-- One step of `try_pop`. -/
def popStep [DecidableEq W] (ops : SegOps W M) :
    PopPc W → M → Option (PopPc W × M × List (PopEvent W))
  | .loadHead out, m => (ops.loadHead m).map fun head => (.loadSeq out head, m, [])
  | .loadSeq out head, m =>
    (ops.loadSeq head m).map fun seq =>
      if seq ≠ ops.next head then (.done none out, m, [.none out])
      else (.readLen out head, m, [])
  | .readLen out head, m =>
    (ops.loadLen head m).map fun len => (.readPayload out head len.toNat, m, [])
  | .readPayload _ head len, m =>
    -- `out.clear()` and `extend_from_slice`: what `out` held is gone
    (ops.readPayload head len m).map fun bs => (.release bs head, m, [])
  | .release out head, m =>
    (ops.storeSeq head (ops.lap head) m).map fun m' => (.storeHead out head, m', [.release head])
  | .storeHead out head, m =>
    (ops.storeHead (ops.next head) m).map fun m' =>
      (.done (some head) out, m', [.some head out])
  | .idle, _ => none
  | .done _ _, _ => none

theorem pushStep_of_ready {ops : SegOps W M} {spurious : Bool} {pc : PushPc W} {m : M}
    (h : pc.ready) : pushStep ops spurious pc m = none := by
  cases pc <;> first | rfl | cases h

theorem popStep_of_ready [DecidableEq W] {ops : SegOps W M} {pc : PopPc W} {m : M}
    (h : pc.ready) : popStep ops pc m = none := by
  cases pc <;> first | rfl | cases h

/-- All that one step of `push` can do. -/
inductive PushTrans (ops : SegOps W M) (spurious : Bool) :
    PushPc W → M → PushPc W → M → List (PushEvent W) → Prop where
  | loadTail {data m pos} : ops.loadTail m = some pos →
      PushTrans ops spurious (.loadTail data) m (.loadSeq data pos) m [.tailLoad]
  | free {data pos m seq} : ops.loadSeq pos m = some seq → ops.diff seq pos = 0 →
      PushTrans ops spurious (.loadSeq data pos) m (.cas data pos) m []
  | full {data pos m seq} : ops.loadSeq pos m = some seq → ops.diff seq pos < 0 →
      PushTrans ops spurious (.loadSeq data pos) m (.done (.error .full)) m [.full]
  | stale {data pos m seq} : ops.loadSeq pos m = some seq → 0 < ops.diff seq pos →
      PushTrans ops spurious (.loadSeq data pos) m (.loadTail data) m []
  | spurious {data pos m} : spurious = true →
      PushTrans ops spurious (.cas data pos) m (.loadTail data) m [.casFail true]
  | won {data pos m m'} : spurious = false → ops.casTail pos (ops.next pos) m = some (m', true) →
      PushTrans ops spurious (.cas data pos) m (.writeLen data pos) m' [.reserve data pos]
  | lost {data pos m m'} : spurious = false → ops.casTail pos (ops.next pos) m = some (m', false) →
      PushTrans ops spurious (.cas data pos) m (.loadTail data) m' [.casFail false]
  | writeLen {data pos m m'} : ops.storeLen pos (UInt32.ofNat data.length) m = some m' →
      PushTrans ops spurious (.writeLen data pos) m (.writePayload data pos) m' []
  | writePayload {data pos m m'} : ops.writePayload pos data m = some m' →
      PushTrans ops spurious (.writePayload data pos) m (.publish data pos) m' []
  | publish {data pos m m'} : ops.storeSeq pos (ops.next pos) m = some m' →
      PushTrans ops spurious (.publish data pos) m (.done (.ok pos)) m' [.publish pos]

theorem pushTrans_of_step {ops : SegOps W M} {spurious : Bool} {pc pc' : PushPc W} {m m' : M}
    {ev : List (PushEvent W)} (h : pushStep ops spurious pc m = some (pc', m', ev)) :
    PushTrans ops spurious pc m pc' m' ev := by
  cases pc with
  | idle => cases h
  | done r => cases h
  | loadTail data =>
    obtain ⟨pos, hp, h⟩ := Option.map_eq_some_iff.mp h
    cases h
    exact .loadTail hp
  | loadSeq data pos =>
    obtain ⟨seq, hq, h⟩ := Option.map_eq_some_iff.mp h
    dsimp only at h
    split at h
    · rename_i hd
      cases h
      exact .free hq hd
    · split at h
      · rename_i hd
        cases h
        exact .full hq hd
      · rename_i hne hlt
        cases h
        exact .stale hq (by omega)
  | cas data pos =>
    simp only [pushStep] at h
    split at h
    · rename_i hsp
      cases h
      exact .spurious hsp
    · rename_i hsp
      obtain ⟨⟨m1, won⟩, hc, h⟩ := Option.map_eq_some_iff.mp h
      cases won with
      | true => cases h; exact .won (by simpa using hsp) hc
      | false => cases h; exact .lost (by simpa using hsp) hc
  | writeLen data pos =>
    obtain ⟨m1, hm, h⟩ := Option.map_eq_some_iff.mp h
    cases h
    exact .writeLen hm
  | writePayload data pos =>
    obtain ⟨m1, hm, h⟩ := Option.map_eq_some_iff.mp h
    cases h
    exact .writePayload hm
  | publish data pos =>
    obtain ⟨m1, hm, h⟩ := Option.map_eq_some_iff.mp h
    cases h
    exact .publish hm

theorem PushTrans.step {ops : SegOps W M} {spurious : Bool} {pc pc' : PushPc W} {m m' : M}
    {ev : List (PushEvent W)} (h : PushTrans ops spurious pc m pc' m' ev) :
    pushStep ops spurious pc m = some (pc', m', ev) := by
  cases h with
  | loadTail h => simp [pushStep, h]
  | free h hd => simp [pushStep, h, hd]
  | full h hd => simp [pushStep, h, hd, Int.ne_of_lt hd]
  | stale h hd => simp [pushStep, h, Int.not_lt.mpr (Int.le_of_lt hd), (Int.ne_of_lt hd).symm]
  | spurious h => simp [pushStep, h]
  | won h hc => simp [pushStep, h, hc]
  | lost h hc => simp [pushStep, h, hc]
  | writeLen h => simp [pushStep, h]
  | writePayload h => simp [pushStep, h]
  | publish h => simp [pushStep, h]

/-- All that one step of `try_pop` can do. -/
inductive PopTrans (ops : SegOps W M) :
    PopPc W → M → PopPc W → M → List (PopEvent W) → Prop where
  | loadHead {out m head} : ops.loadHead m = some head →
      PopTrans ops (.loadHead out) m (.loadSeq out head) m []
  | empty {out head m seq} : ops.loadSeq head m = some seq → seq ≠ ops.next head →
      PopTrans ops (.loadSeq out head) m (.done none out) m [.none out]
  | ready {out head m} : ops.loadSeq head m = some (ops.next head) →
      PopTrans ops (.loadSeq out head) m (.readLen out head) m []
  | readLen {out head m len} : ops.loadLen head m = some len →
      PopTrans ops (.readLen out head) m (.readPayload out head len.toNat) m []
  | readPayload {out head len m bs} : ops.readPayload head len m = some bs →
      PopTrans ops (.readPayload out head len) m (.release bs head) m []
  | release {out head m m'} : ops.storeSeq head (ops.lap head) m = some m' →
      PopTrans ops (.release out head) m (.storeHead out head) m' [.release head]
  | storeHead {out head m m'} : ops.storeHead (ops.next head) m = some m' →
      PopTrans ops (.storeHead out head) m (.done (some head) out) m' [.some head out]

theorem popTrans_of_step [DecidableEq W] {ops : SegOps W M} {pc pc' : PopPc W} {m m' : M}
    {ev : List (PopEvent W)} (h : popStep ops pc m = some (pc', m', ev)) :
    PopTrans ops pc m pc' m' ev := by
  cases pc with
  | idle => cases h
  | done r out => cases h
  | loadHead out =>
    obtain ⟨head, hh, h⟩ := Option.map_eq_some_iff.mp h
    cases h
    exact .loadHead hh
  | loadSeq out head =>
    obtain ⟨seq, hq, h⟩ := Option.map_eq_some_iff.mp h
    split at h
    · rename_i hne
      cases h
      exact .empty hq hne
    · rename_i heq
      cases h
      exact .ready (not_not.mp heq ▸ hq)
  | readLen out head =>
    obtain ⟨len, hl, h⟩ := Option.map_eq_some_iff.mp h
    cases h
    exact .readLen hl
  | readPayload out head len =>
    obtain ⟨bs, hb, h⟩ := Option.map_eq_some_iff.mp h
    cases h
    exact .readPayload hb
  | release out head =>
    obtain ⟨m1, hm, h⟩ := Option.map_eq_some_iff.mp h
    cases h
    exact .release hm
  | storeHead out head =>
    obtain ⟨m1, hm, h⟩ := Option.map_eq_some_iff.mp h
    cases h
    exact .storeHead hm

theorem PopTrans.step [DecidableEq W] {ops : SegOps W M} {pc pc' : PopPc W} {m m' : M}
    {ev : List (PopEvent W)} (h : PopTrans ops pc m pc' m' ev) :
    popStep ops pc m = some (pc', m', ev) := by
  cases h with
  | loadHead h => simp [popStep, h]
  | empty h hne => simp [popStep, h, hne]
  | ready h => simp [popStep, h]
  | readLen h => simp [popStep, h]
  | readPayload h => simp [popStep, h]
  | release h => simp [popStep, h]
  | storeHead h => simp [popStep, h]

theorem PushTrans.data_eq {ops : SegOps W M} {spurious : Bool} {pc pc' : PushPc W} {m m' : M}
    {pev : List (PushEvent W)} (h : PushTrans ops spurious pc m pc' m' pev) {data : List UInt8}
    (hd : pc'.data = some data) : pc.data = some data := by
  cases h <;> first | exact hd | cases hd

theorem PopTrans.untouched_eq {ops : SegOps W M} {pc pc' : PopPc W} {m m' : M}
    {pev : List (PopEvent W)} (h : PopTrans ops pc m pc' m' pev) {out : List UInt8}
    (ho : pc'.untouched = some out) :
    pc.untouched = some out := by
  cases h <;> first | exact ho | cases ho

/-- A pop that has found its slot ready goes on to its end. -/
theorem PopTrans.taking {ops : SegOps W M} {pc pc' : PopPc W} {m m' : M} {pev : List (PopEvent W)}
    (h : PopTrans ops pc m pc' m' pev) {pos : W} (hp : pc.taking = some pos) :
    pc'.left < pc.left ∧
      (pc'.taking = some pos ∨ ∃ out, pc' = .done (some pos) out ∧ pev = [.some pos out]) := by
  cases h with
  | loadHead | empty | ready => cases hp
  | readLen | readPayload | release => exact ⟨Nat.lt_succ_self _, .inl hp⟩
  | storeHead =>
    cases hp
    exact ⟨Nat.lt_succ_self _, .inr ⟨_, rfl, rfl⟩⟩

end Steps

/-! ### The ring shared by producers `ι` and one consumer -/

structure RingState (ι W M : Type) where
  mem : M
  push : ι → PushPc W
  pop : PopPc W

inductive RingAction (ι : Type) where
  | call (i : ι) (data : List UInt8)
  | push (i : ι) (spurious : Bool)
  | popCall (out : List UInt8)
  | pop
  /-- Someone writes the `consumer_state` word, which neither function touches. -/
  | state (v : UInt64)

inductive RingEvent (ι W : Type) where
  | call (i : ι) (data : List UInt8)
  | push (i : ι) (e : PushEvent W)
  | popCall (out : List UInt8)
  | pop (e : PopEvent W)
  deriving DecidableEq

section Ring

variable {ι W M : Type} [DecidableEq ι] [DecidableEq W]

def ringStep (ops : SegOps W M) (s : RingState ι W M) :
    RingAction ι → Option (RingState ι W M × List (RingEvent ι W))
  | .call i data =>
    if (s.push i).ready then
      some ({ s with push := Function.update s.push i (pushCall ops data) }, [.call i data])
    else none
  | .push i spurious =>
    (pushStep ops spurious (s.push i) s.mem).map fun r =>
      ({ s with mem := r.2.1, push := Function.update s.push i r.1 }, r.2.2.map (.push i))
  | .popCall out =>
    if s.pop.ready then some ({ s with pop := .loadHead out }, [.popCall out]) else none
  | .pop =>
    (popStep ops s.pop s.mem).map fun r =>
      ({ s with mem := r.2.1, pop := r.1 }, r.2.2.map .pop)
  | .state v => (ops.storeState v s.mem).map fun m => ({ s with mem := m }, [])

/-- All that one step of the ring can do. -/
inductive RingTrans (ops : SegOps W M) (s : RingState ι W M) :
    RingAction ι → RingState ι W M → List (RingEvent ι W) → Prop where
  | call {i data} : (s.push i).ready = true →
      RingTrans ops s (.call i data)
        { s with push := Function.update s.push i (pushCall ops data) } [.call i data]
  | push {i spurious pc m ev} : PushTrans ops spurious (s.push i) s.mem pc m ev →
      RingTrans ops s (.push i spurious) { s with mem := m, push := Function.update s.push i pc }
        (ev.map (.push i))
  | popCall {out} : s.pop.ready = true →
      RingTrans ops s (.popCall out) { s with pop := .loadHead out } [.popCall out]
  | pop {pc m ev} : PopTrans ops s.pop s.mem pc m ev →
      RingTrans ops s .pop { s with mem := m, pop := pc } (ev.map .pop)
  | state {v m} : ops.storeState v s.mem = some m →
      RingTrans ops s (.state v) { s with mem := m } []

theorem ringTrans_of_step {ops : SegOps W M} {s s' : RingState ι W M} {a : RingAction ι}
    {ev : List (RingEvent ι W)} (h : ringStep ops s a = some (s', ev)) :
    RingTrans ops s a s' ev := by
  cases a with
  | call i data =>
    simp only [ringStep] at h
    split at h
    · rename_i hready
      cases h
      exact .call hready
    · cases h
  | push i spurious =>
    obtain ⟨⟨pc, m, pev⟩, hp, h⟩ := Option.map_eq_some_iff.mp h
    cases h
    exact .push (pushTrans_of_step hp)
  | popCall out =>
    simp only [ringStep] at h
    split at h
    · rename_i hready
      cases h
      exact .popCall hready
    · cases h
  | pop =>
    obtain ⟨⟨pc, m, pev⟩, hp, h⟩ := Option.map_eq_some_iff.mp h
    cases h
    exact .pop (popTrans_of_step hp)
  | state v =>
    obtain ⟨m, hm, h⟩ := Option.map_eq_some_iff.mp h
    cases h
    exact .state hm

def ringMachine (ι : Type) [DecidableEq ι] (ops : SegOps W M) :
    Machine (RingState ι W M) (RingAction ι) (RingEvent ι W) where
  step := ringStep ops

/-- A producer moves by its own calls and steps only. -/
theorem ringStep_push_of_ne {ops : SegOps W M} {s s' : RingState ι W M} {a : RingAction ι}
    {ev : List (RingEvent ι W)} (hs : ringStep ops s a = some (s', ev)) {i : ι}
    (ha : ∀ spurious, a ≠ .push i spurious) (hc : ∀ d, a ≠ .call i d) : s'.push i = s.push i := by
  cases ringTrans_of_step hs with
  | @call j data _ =>
    have hij : i ≠ j := by
      rintro rfl
      exact hc data rfl
    exact Function.update_of_ne hij _ _
  | @push j spurious pc m pev _ =>
    have hij : i ≠ j := by
      rintro rfl
      exact ha spurious rfl
    exact Function.update_of_ne hij _ _
  | popCall | pop | state => rfl

/-- Inside a call it calls nothing. -/
theorem ringStep_push_eq {ops : SegOps W M} {s s' : RingState ι W M} {a : RingAction ι}
    {ev : List (RingEvent ι W)} (hs : ringStep ops s a = some (s', ev)) {i : ι}
    (ha : ∀ spurious, a ≠ .push i spurious) (hi : (s.push i).ready = false) :
    s'.push i = s.push i := by
  refine ringStep_push_of_ne hs ha ?_
  rintro d rfl
  simp [ringStep, hi] at hs

/-- Nobody is inside a call. -/
def RingState.start (m : M) : RingState ι W M where
  mem := m
  push := fun _ => .idle
  pop := .idle

end Ring

/-! ### What a log says -/

section Log

variable {ι W : Type}

/-- Successful reservations in order: who, what and where. -/
def reserves : List (RingEvent ι W) → List (ι × List UInt8 × W) :=
  List.filterMap fun
    | .push i (.reserve data pos) => some (i, data, pos)
    | _ => none

/-- The results `Some(pos)` of `try_pop` in order, with the bytes left in `out`. -/
def pops : List (RingEvent ι W) → List (W × List UInt8) :=
  List.filterMap fun
    | .pop (.some pos out) => some (pos, out)
    | _ => none

/-- The slot-releasing stores of the consumer. -/
def releases : List (RingEvent ι W) → List W :=
  List.filterMap fun
    | .pop (.release head) => some head
    | _ => none

/-- Some `push` has made its publishing store at `pos`. -/
def Published (log : List (RingEvent ι W)) (pos : W) : Prop :=
  ∃ i, RingEvent.push i (.publish pos) ∈ log

/-- What `out` held when the last `try_pop` was called. -/
def outBefore (log : List (RingEvent ι W)) : List UInt8 :=
  log.foldl (fun out e => match e with | .popCall out' => out' | _ => out) []

/-- What producer `i` last called `push` with. -/
def calledWith [DecidableEq ι] (i : ι) (log : List (RingEvent ι W)) : Option (List UInt8) :=
  log.foldl (fun d e => match e with | .call j data => if j = i then some data else d | _ => d) none

/-- Reservations since the last tail load of producer `i`. -/
def reservedSince [DecidableEq ι] (i : ι) (log : List (RingEvent ι W)) : Nat :=
  log.foldl (fun n e => match e with
    | .push j .tailLoad => if j = i then 0 else n
    | .push _ (.reserve _ _) => n + 1
    | _ => n) 0

variable {log ev : List (RingEvent ι W)}

@[simp] theorem reserves_append : reserves (log ++ ev) = reserves log ++ reserves ev :=
  List.filterMap_append

@[simp] theorem pops_append : pops (log ++ ev) = pops log ++ pops ev := List.filterMap_append

@[simp] theorem releases_append : releases (log ++ ev) = releases log ++ releases ev :=
  List.filterMap_append

@[simp] theorem published_append {pos : W} :
    Published (log ++ ev) pos ↔ Published log pos ∨ Published ev pos := by
  simp [Published, exists_or]

@[simp] theorem published_nil {pos : W} : ¬ Published ([] : List (RingEvent ι W)) pos := by
  simp [Published]

@[simp] theorem published_single {pos pos' : W} {i : ι} :
    Published [RingEvent.push i (.publish pos')] pos ↔ pos = pos' := by
  simp [Published]

theorem reservedSince_tailLoad [DecidableEq ι] (i j : ι) :
    reservedSince i (log ++ [.push j .tailLoad]) = if j = i then 0 else reservedSince i log := by
  simp [reservedSince]

theorem reservedSince_reserve [DecidableEq ι] (i j : ι) (data : List UInt8) (pos : W) :
    reservedSince i (log ++ [.push j (.reserve data pos)]) = reservedSince i log + 1 := by
  simp [reservedSince]

/-- Events that neither load the tail nor reserve count nothing. -/
theorem reservedSince_other [DecidableEq ι] (i : ι) {e : RingEvent ι W}
    (ht : ∀ j, e ≠ .push j .tailLoad) (hr : ∀ j data pos, e ≠ .push j (.reserve data pos)) :
    reservedSince i (log ++ [e]) = reservedSince i log := by
  cases e with
  | push j e =>
    cases e with
    | tailLoad => exact absurd rfl (ht j)
    | reserve data pos => exact absurd rfl (hr j data pos)
    | casFail | publish | full => simp [reservedSince]
  | call | popCall | pop => simp [reservedSince]

section Arguments

variable {M : Type} [DecidableEq ι] [DecidableEq W] {ops : SegOps W M}
  {G : Machine.Guard (RingState ι W M) (RingAction ι) (RingEvent ι W)}

/-- A `push` under way works on the bytes it was called with. -/
theorem calledWith_of_data {m : M} {as : List (RingAction ι)} {s : RingState ι W M}
    (h : (ringMachine ι ops).Run G (RingState.start m) [] as s log) {i : ι} {data : List UInt8}
    (hd : (s.push i).data = some data) : calledWith i log = some data := by
  refine h.invariant (I := fun s log => ∀ i data, (s.push i).data = some data →
    calledWith i log = some data) (fun i data hd => by cases hd) ?_ i data hd
  intro s log a s' ev hI _ hs i data hd
  cases ringTrans_of_step hs with
  | @call j d _ =>
    by_cases hj : j = i
    · subst hj
      simp only [Function.update_self, pushCall] at hd
      split at hd
      · cases hd
      · simpa [calledWith, PushPc.data] using hd
    · have hd := hI i data (by simpa [Ne.symm hj] using hd)
      simpa [calledWith, hj] using hd
  | @push j sp pc m' pev ht =>
    have hkeep : calledWith i (log ++ pev.map (.push j)) = calledWith i log := by
      simp [calledWith, List.foldl_map]
    rw [hkeep]
    by_cases hj : j = i
    · subst hj
      exact hI j data (ht.data_eq (by simpa using hd))
    · exact hI i data (by simpa [Ne.symm hj] using hd)
  | popCall => simpa [calledWith] using hI i data hd
  | pop => simpa [calledWith, List.foldl_map] using hI i data hd
  | state => simpa using hI i data hd

/-- `out` holds what it was given until `try_pop` clears it. -/
theorem outBefore_of_untouched {m : M} {as : List (RingAction ι)} {s : RingState ι W M}
    (h : (ringMachine ι ops).Run G (RingState.start m) [] as s log) {out : List UInt8}
    (ho : s.pop.untouched = some out) : outBefore log = out := by
  refine h.invariant (I := fun s log => ∀ out, s.pop.untouched = some out → outBefore log = out)
    (fun out ho => by cases ho) ?_ out ho
  intro s log a s' ev hI _ hs out ho
  cases ringTrans_of_step hs with
  | call => simpa [outBefore] using hI out ho
  | push => simpa [outBefore, List.foldl_map] using hI out ho
  | popCall => simpa [outBefore, PopPc.untouched] using ho
  | pop ht =>
    have ho := hI out (ht.untouched_eq ho)
    simpa [outBefore, List.foldl_map] using ho
  | state => simpa using hI out ho

end Arguments

/-- Events that are neither a reservation, a publication, a release nor a `Some`. -/
structure Quiet (ev : List (RingEvent ι W)) : Prop where
  reserves : reserves ev = []
  pops : pops ev = []
  releases : releases ev = []
  published : ∀ pos, ¬ Published ev pos

theorem Quiet.nil : Quiet ([] : List (RingEvent ι W)) := ⟨rfl, rfl, rfl, fun _ => published_nil⟩

theorem Quiet.tailLoad (i : ι) : Quiet [(.push i .tailLoad : RingEvent ι W)] :=
  ⟨rfl, rfl, rfl, by simp [Published]⟩

theorem Quiet.casFail (i : ι) (spurious : Bool) :
    Quiet [(.push i (.casFail spurious) : RingEvent ι W)] :=
  ⟨rfl, rfl, rfl, by simp [Published]⟩

theorem Quiet.full (i : ι) : Quiet [(.push i .full : RingEvent ι W)] :=
  ⟨rfl, rfl, rfl, by simp [Published]⟩

theorem Quiet.none (out : List UInt8) : Quiet [(.pop (.none out) : RingEvent ι W)] :=
  ⟨rfl, rfl, rfl, by simp [Published]⟩

end Log

end ShmMpsc
