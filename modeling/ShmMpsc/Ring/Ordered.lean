import ShmMpsc.Lib.ReleaseAcquire
import ShmMpsc.Ring.Fifo

/-!
# The ring under the orderings of the code

The two positions are loaded relaxed, `seq` is loaded acquire and stored release, the
compare-exchange is relaxed, and length and payload are plain bytes. Every load may answer
with an old message; which one is up to the memory. Length and payload of a slot are one
cell, so whatever races on any of its bytes races here.
-/

namespace ShmMpsc

set_option autoImplicit false

/-- The words that `push` and `try_pop` share; a slot is named by `K`. -/
inductive Word (K : Type) where
  | tail
  | head
  | seq (slot : K)
  deriving DecidableEq

section Orders

variable {τ W K M : Type} [DecidableEq τ] [DecidableEq K]

/-- The accesses of thread `t`, each with its ordering. -/
def SegOps.ordered (ops : SegOps W M) (slot : W → K) (t : τ) :
    SegOps W (RelAcq τ (Word K) W K M) where
  maxLen := ops.maxLen
  next := ops.next
  lap := ops.lap
  diff := ops.diff
  loadTail := RelAcq.load ops.loadTail t .tail
  casTail := fun expected new => RelAcq.cas (ops.casTail expected new) new t .tail
  loadHead := RelAcq.load ops.loadHead t .head
  storeHead := fun v => RelAcq.store (ops.storeHead v) .release v t .head
  loadSeq := fun pos => RelAcq.load (ops.loadSeq pos) t (.seq (slot pos))
  storeSeq := fun pos v => RelAcq.store (ops.storeSeq pos v) .release v t (.seq (slot pos))
  loadLen := fun pos => RelAcq.plainRead (ops.loadLen pos) t (slot pos)
  storeLen := fun pos v => RelAcq.plainWrite (ops.storeLen pos v) t (slot pos)
  readPayload := fun pos n => RelAcq.plainRead (ops.readPayload pos n) t (slot pos)
  writePayload := fun pos bs => RelAcq.plainWrite (ops.writePayload pos bs) t (slot pos)
  -- neither function touches `consumer_state`
  loadState := fun s => ops.loadState s.mem
  storeState := fun v s => (ops.storeState v s.mem).map fun m => { s with mem := m }
  casState := fun expected new s =>
    (ops.casState expected new s.mem).map fun r => ({ s with mem := r.1 }, r.2)

/-- What the next step of `push` takes over or leaves as a reader. -/
def PushPc.loaded (slot : W → K) (t : τ) :
    PushPc W → RelAcq τ (Word K) W K M → RelAcq τ (Word K) W K M
  | .loadTail _ => .loaded .relaxed t .tail
  | .loadSeq _ pos => .loaded .acquire t (.seq (slot pos))
  | _ => id

/-- And what the next step of `try_pop` does. -/
def PopPc.loaded (slot : W → K) (t : τ) :
    PopPc W → RelAcq τ (Word K) W K M → RelAcq τ (Word K) W K M
  | .loadHead _ => .loaded .relaxed t .head
  | .loadSeq _ head => .loaded .acquire t (.seq (slot head))
  | .readLen _ head | .readPayload _ head _ => .noteRead t (slot head)
  | _ => id

end Orders

section Machine

variable {ι W K M : Type} [DecidableEq ι] [DecidableEq K] [DecidableEq W]

/-- Thread `none` is the consumer. -/
abbrev OrderedState (ι W K M : Type) := RingState ι W (RelAcq (Option ι) (Word K) W K M)

inductive OrderedAction (ι K : Type) where
  | ring (a : RingAction ι)
  /-- A thread's next load of the word will not be answered with its oldest message. -/
  | see (t : Option ι) (x : Word K)

def RingAction.thread : RingAction ι → Option ι
  | .call i _ | .push i _ => some i
  | .popCall _ | .pop | .state _ => none

def RingState.loaded (slot : W → K) (s : OrderedState ι W K M) :
    RingAction ι → RelAcq (Option ι) (Word K) W K M → RelAcq (Option ι) (Word K) W K M
  | .push i _ => (s.push i).loaded slot (some i)
  | .pop => s.pop.loaded slot none
  | .call _ _ | .popCall _ | .state _ => id

/-- `none` is also a data race and a store whose place is open. -/
def orderedStep (ops : SegOps W M) (slot : W → K) (s : OrderedState ι W K M) :
    OrderedAction ι K → Option (OrderedState ι W K M × List (RingEvent ι W))
  | .ring a => (ringStep (ops.ordered slot a.thread) s a).map fun r =>
    ({ r.1 with mem := s.loaded slot a r.1.mem }, r.2)
  | .see t x => (s.mem.see t x).map fun m => ({ s with mem := m }, [])

def orderedMachine (ι : Type) [DecidableEq ι] (ops : SegOps W M) (slot : W → K) :
    Machine (OrderedState ι W K M) (OrderedAction ι K) (RingEvent ι W) where
  step := orderedStep ops slot

end Machine

/-- A run from a mapping of `total()` bytes that `init` prepared before anyone connected. -/
def OrderedRun {ι : Type} [DecidableEq ι] (cfg : RingConfig)
    (G : Machine.Guard (OrderedState ι UInt64 UInt64 Memory) (OrderedAction ι UInt64)
      (RingEvent ι UInt64))
    (as : List (OrderedAction ι UInt64)) (s : OrderedState ι UInt64 UInt64 Memory)
    (log : List (RingEvent ι UInt64)) : Prop :=
  ∃ m m', m.size = cfg.total.toNat ∧ init cfg m = some m' ∧
    (orderedMachine ι (segOps cfg) cfg.slotPtr).Run G (RingState.start (.start m')) [] as s log

end ShmMpsc
