import Mathlib.Algebra.Order.Group.Nat
import ShmMpsc.Ring.Algorithm

/-!
# The ring with unbounded counters

The same algorithm over natural numbers: nothing wraps, `diff` is an integer
difference, a slot is a record. Its invariant says which position every slot serves
and who may touch it.
-/

namespace ShmMpsc

set_option autoImplicit false

structure UMem where
  tail : Nat
  head : Nat
  state : UInt64
  seq : Nat → Nat
  len : Nat → UInt32
  payload : Nat → Nat → UInt8

/-- `N` slots, messages of at most `L` bytes. -/
def unboundedOps (N L : Nat) : SegOps Nat UMem where
  maxLen := L
  next := fun pos => pos + 1
  lap := fun head => head + N
  diff := fun seq pos => (seq : Int) - pos
  loadTail := fun m => some m.tail
  casTail := fun expected new m =>
    if m.tail = expected then some ({ m with tail := new }, true) else some (m, false)
  loadHead := fun m => some m.head
  storeHead := fun v m => some { m with head := v }
  loadSeq := fun pos m => some (m.seq (pos % N))
  storeSeq := fun pos v m => some { m with seq := Function.update m.seq (pos % N) v }
  loadLen := fun pos m => some (m.len (pos % N))
  storeLen := fun pos v m => some { m with len := Function.update m.len (pos % N) v }
  readPayload := fun pos n m => some ((List.range n).map (m.payload (pos % N)))
  writePayload := fun pos bs m => some { m with
    payload := Function.update m.payload (pos % N) fun j => bs[j]?.getD (m.payload (pos % N) j) }
  loadState := fun m => some m.state
  storeState := fun v m => some { m with state := v }
  casState := fun expected new m =>
    if m.state = expected then some ({ m with state := new }, true) else some (m, false)

theorem ready_of_pushStep {N L : Nat} {spurious : Bool} {pc : PushPc Nat} {m : UMem}
    (h : pushStep (unboundedOps N L) spurious pc m = none) : pc.ready := by
  cases pc with
  | idle | done => rfl
  | cas data pos =>
    simp only [pushStep, unboundedOps] at h
    split at h
    · cases h
    · split at h <;> cases h
  | _ => cases h

theorem ready_of_popStep {N L : Nat} {pc : PopPc Nat} {m : UMem}
    (h : popStep (unboundedOps N L) pc m = none) : pc.ready := by
  cases pc <;> first | rfl | cases h

/-- The memory `init` leaves: slot `i` is free for position `i`. -/
def UMem.start (N : Nat) (len : Nat → UInt32) (payload : Nat → Nat → UInt8) : UMem where
  tail := 0
  head := 0
  state := 0
  seq := fun i => if i < N then i else 0
  len := len
  payload := payload

section Writers

variable {W : Type}

/-- The message and position of a `push` between its successful CAS and its publishing store. -/
def PushPc.writing : PushPc W → Option (List UInt8 × W)
  | .writeLen data pos | .writePayload data pos | .publish data pos => some (data, pos)
  | _ => none

end Writers

variable {ι : Type}

/-- How many positions the consumer has given back: its head, and one more between its two
stores. -/
def freed (s : RingState ι Nat UMem) : Nat :=
  match s.pop with
  | .storeHead _ _ => s.mem.head + 1
  | _ => s.mem.head

theorem freed_eq_head {s : RingState ι Nat UMem} (h : ∀ out head, s.pop ≠ .storeHead out head) :
    freed s = s.mem.head := by
  unfold freed
  split
  · rename_i out head heq
    exact absurd heq (h out head)
  · rfl

theorem head_le_freed (s : RingState ι Nat UMem) : s.mem.head ≤ freed s := by
  unfold freed
  split <;> omega

theorem freed_of_ready {s : RingState ι Nat UMem} (h : s.pop.ready = true) :
    freed s = s.mem.head := by
  refine freed_eq_head fun o hd heq => ?_
  rw [heq] at h
  cases h

theorem freed_storeHead {s : RingState ι Nat UMem} {out : List UInt8} {head : Nat}
    (h : s.pop = .storeHead out head) : freed s = s.mem.head + 1 := by
  simp [freed, h]

/-- What comes back of a message whose length went through a `u32`. -/
def truncated (data : List UInt8) : List UInt8 := data.take (data.length % 2 ^ 32)

theorem truncated_of_lt {data : List UInt8} (h : data.length < 2 ^ 32) : truncated data = data := by
  rw [truncated, Nat.mod_eq_of_lt h, List.take_length]

/-- The slot of `pos` holds the message `data`. -/
structure Holds (N : Nat) (m : UMem) (pos : Nat) (data : List UInt8) : Prop where
  len : m.len (pos % N) = UInt32.ofNat data.length
  bytes : (List.range data.length).map (m.payload (pos % N)) = data

theorem Holds.read {N : Nat} {m : UMem} {pos : Nat} {data : List UInt8} (h : Holds N m pos data) :
    (List.range (m.len (pos % N)).toNat).map (m.payload (pos % N)) = truncated data := by
  have hlen : (m.len (pos % N)).toNat = data.length % 2 ^ 32 := by
    rw [h.len, UInt32.toNat_ofNat']
  have htake : List.range (data.length % 2 ^ 32) =
      (List.range data.length).take (data.length % 2 ^ 32) := by
    rw [List.take_range, Nat.min_eq_left (Nat.mod_le _ _)]
  rw [hlen, htake, List.map_take, h.bytes, truncated]

/-- `out` is what comes back of the message for which position `pos` was reserved. -/
def Reserved (log : List (RingEvent ι Nat)) (pos : Nat) (out : List UInt8) : Prop :=
  ∃ i data, (reserves log)[pos]? = some (i, data, pos) ∧ out = truncated data

/-- What the consumer knows at each point of `try_pop`. -/
def PopOk (N : Nat) (m : UMem) (log : List (RingEvent ι Nat)) : PopPc Nat → Prop
  | .idle | .loadHead _ | .done _ _ => True
  | .loadSeq _ head => head = m.head
  | .readLen _ head => head = m.head ∧ m.seq (head % N) = head + 1
  | .readPayload _ head len =>
    head = m.head ∧ m.seq (head % N) = head + 1 ∧ len = (m.len (head % N)).toNat
  | .release out head =>
    head = m.head ∧ m.seq (head % N) = head + 1 ∧ Reserved log head out
  | .storeHead out head => head = m.head ∧ Reserved log head out

/-- What a producer knows at each point of `push`; `f` positions have been freed. -/
def PushOk [DecidableEq ι] (N f : Nat) (m : UMem) (log : List (RingEvent ι Nat)) (i : ι) :
    PushPc Nat → Prop
  | .idle | .loadTail _ | .done _ => True
  | .loadSeq _ pos => pos + reservedSince i log = m.tail
  | .cas _ pos => pos + reservedSince i log = m.tail ∧ pos < f + N
  | .writeLen data pos =>
    f ≤ pos ∧ (reserves log)[pos]? = some (i, data, pos) ∧ m.seq (pos % N) = pos
  | .writePayload data pos =>
    f ≤ pos ∧ (reserves log)[pos]? = some (i, data, pos) ∧ m.seq (pos % N) = pos ∧
      m.len (pos % N) = UInt32.ofNat data.length
  | .publish data pos =>
    f ≤ pos ∧ (reserves log)[pos]? = some (i, data, pos) ∧ m.seq (pos % N) = pos ∧
      Holds N m pos data

/-- The invariant of the unbounded ring with `N` slots and messages of at most `L` bytes. -/
structure RingInv [DecidableEq ι] (N L : Nat) (s : RingState ι Nat UMem)
    (log : List (RingEvent ι Nat)) : Prop where
  tail_eq : (reserves log).length = s.mem.tail
  reserved_at : ∀ (k : Nat) i data pos, (reserves log)[k]? = some (i, data, pos) →
    pos = k ∧ data.length ≤ L
  freed_le : freed s ≤ s.mem.tail
  tail_le : s.mem.tail ≤ freed s + N
  push_ok : ∀ i, PushOk N (freed s) s.mem log i (s.push i)
  small : ∀ i (data : List UInt8), (s.push i).data = some data → data.length ≤ L
  pop_ok : PopOk N s.mem log s.pop
  /-- Each of the next `N` positions owns its slot: free, being written, or published. -/
  slot : ∀ p, freed s ≤ p → p < freed s + N →
    (s.mem.seq (p % N) = p ∧ (p < s.mem.tail → ∃ i data, (s.push i).writing = some (data, p))) ∨
    (s.mem.seq (p % N) = p + 1 ∧
      ∃ i data, (reserves log)[p]? = some (i, data, p) ∧ Holds N s.mem p data)
  published : ∀ p, Published log p ↔
    p < freed s ∨ (p < freed s + N ∧ s.mem.seq (p % N) = p + 1)
  released : (releases log).length = freed s
  popped : (pops log).length = s.mem.head
  popped_at : ∀ (k : Nat) pos out, (pops log)[k]? = some (pos, out) →
    pos = k ∧ Reserved log k out

end ShmMpsc
