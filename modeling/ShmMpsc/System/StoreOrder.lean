import ShmMpsc.Ring.Invariant
import ShmMpsc.System.Orders

/-!
# The ring behind store buffers

Behind store buffers the memory lags: publishing and releasing stores are made before they
arrive. The unbounded ring runs ahead on a memory in which every store has arrived, and
what the threads see of the late one is bounded: each slot has at most one thread with
stores to it waiting.
-/

namespace ShmMpsc

set_option autoImplicit false

/-! ### One step behind a store buffer -/

section Steps

variable {τ W M : Type}

/-- The store that the next step of `push` makes. -/
def PushPc.store (ops : SegOps W M) : PushPc W → Option (Store W)
  | .writeLen data pos => some (.len pos (UInt32.ofNat data.length))
  | .writePayload data pos => some (.payload pos data)
  | .publish _ pos => some (.seq pos (ops.next pos))
  | _ => none

/-- The store that the next step of `try_pop` makes. -/
def PopPc.store (ops : SegOps W M) : PopPc W → Option (Store W)
  | .release _ head => some (.seq head (ops.lap head))
  | .storeHead _ head => some (.head (ops.next head))
  | _ => none

/-- The next step of `push` is a compare-exchange that is really tried. -/
def PushPc.locked (spurious : Bool) : PushPc W → Bool
  | .cas _ _ => !spurious
  | _ => false

variable [DecidableEq τ]

/-- What a step of thread `t` leaves: its store waits, a compare-exchange has emptied the
buffer and acted on the memory `m` that the thread sees. -/
def leaves (t : τ) (b : Buffered τ (Store W) M) (store : Option (Store W)) (locked : Bool) (m : M) :
    Buffered τ (Store W) M :=
  match store with
  | some e => { b with buf := Function.update b.buf t (b.buf t ++ [e]) }
  | none => if locked then { mem := m, buf := Function.update b.buf t [] } else b

variable {ops : SegOps W M} {t : τ} {b : Buffered τ (Store W) M} {m : M}

/-- A step behind the buffers is a step on the memory that the thread sees. -/
theorem pushStep_buffered (hv : b.view (Store.apply ops) t = some m) (spurious : Bool)
    (pc : PushPc W) : pushStep (ops.buffered t) spurious pc b = (pushStep ops spurious pc m).map
      fun r => (r.1, leaves t b (pc.store ops) (pc.locked spurious) r.2.1, r.2.2) := by
  have hload {α : Type} (f : M → Option α) := Buffered.load_of_view hv f
  have hstore := Buffered.store_of_view hv
  cases pc with
  | idle => rfl
  | done => rfl
  | loadTail data =>
    simp only [pushStep, SegOps.buffered, hload, Option.map_map]
    rfl
  | loadSeq data pos =>
    simp only [pushStep, SegOps.buffered, hload, Option.map_map]
    refine Option.map_congr fun seq _ => ?_
    dsimp only [Function.comp]
    by_cases h0 : ops.diff seq pos = 0
    · simp [h0, leaves, PushPc.store, PushPc.locked]
    · by_cases h1 : ops.diff seq pos < 0
      · simp [h0, h1, leaves, PushPc.store, PushPc.locked]
      · simp [h0, h1, leaves, PushPc.store, PushPc.locked]
  | cas data pos =>
    cases spurious with
    | true => rfl
    | false =>
      simp only [pushStep, SegOps.buffered, Buffered.rmw_of_view hv, Bool.false_eq_true, if_false,
        Option.map_map]
      refine Option.map_congr fun r _ => ?_
      obtain ⟨m1, won⟩ := r
      cases won <;> rfl
  | writeLen data pos =>
    simp only [pushStep, SegOps.buffered, hstore, Option.map_map]
    rfl
  | writePayload data pos =>
    simp only [pushStep, SegOps.buffered, hstore, Option.map_map]
    rfl
  | publish data pos =>
    simp only [pushStep, SegOps.buffered, hstore, Option.map_map]
    rfl

theorem popStep_buffered [DecidableEq W] (hv : b.view (Store.apply ops) t = some m) (pc : PopPc W) :
    popStep (ops.buffered t) pc b = (popStep ops pc m).map
      fun r => (r.1, leaves t b (pc.store ops) false r.2.1, r.2.2) := by
  have hload {α : Type} (f : M → Option α) := Buffered.load_of_view hv f
  have hstore := Buffered.store_of_view hv
  cases pc with
  | idle => rfl
  | done => rfl
  | loadHead out =>
    simp only [popStep, SegOps.buffered, hload, Option.map_map]
    rfl
  | loadSeq out head =>
    simp only [popStep, SegOps.buffered, hload, Option.map_map]
    refine Option.map_congr fun seq _ => ?_
    dsimp only [Function.comp]
    by_cases hq : seq = ops.next head
    · simp [hq, leaves, PopPc.store]
    · simp [hq, leaves, PopPc.store]
  | readLen out head =>
    simp only [popStep, SegOps.buffered, hload, Option.map_map]
    rfl
  | readPayload out head len =>
    simp only [popStep, SegOps.buffered, hload, Option.map_map]
    rfl
  | release out head =>
    simp only [popStep, SegOps.buffered, hstore, Option.map_map]
    rfl
  | storeHead out head =>
    simp only [popStep, SegOps.buffered, hstore, Option.map_map]
    rfl

end Steps

/-! ### The cells of the unbounded memory -/

/-- What one slot of the unbounded memory shows. -/
structure Slot where
  seq : Nat
  len : UInt32
  payload : Nat → UInt8

def UMem.slot (k : Nat) (m : UMem) : Slot :=
  { seq := m.seq k, len := m.len k, payload := m.payload k }

/-- What a store does to slot `k`. -/
def Store.onSlot (N k : Nat) (v : Slot) : Store Nat → Slot
  | .seq pos x => if pos % N = k then { v with seq := x } else v
  | .len pos x => if pos % N = k then { v with len := x } else v
  | .payload pos bs =>
    if pos % N = k then { v with payload := fun j => bs[j]?.getD (v.payload j) } else v
  | .head _ | .state _ => v

def Store.onHead (v : Nat) : Store Nat → Nat
  | .head x => x
  | _ => v

section Cells

variable {N L k : Nat}

theorem slot_changes : Buffered.Changes (Store.apply (unboundedOps N L)) (UMem.slot k)
    (Store.onSlot N k) := by
  intro e m m' h
  cases e with
  | seq pos x =>
    cases h
    by_cases hk : pos % N = k
    · subst hk
      simp [UMem.slot, Store.onSlot]
    · simp [UMem.slot, Store.onSlot, hk, Ne.symm hk]
  | len pos x =>
    cases h
    by_cases hk : pos % N = k
    · subst hk
      simp [UMem.slot, Store.onSlot]
    · simp [UMem.slot, Store.onSlot, hk, Ne.symm hk]
  | payload pos bs =>
    cases h
    by_cases hk : pos % N = k
    · subst hk
      simp [UMem.slot, Store.onSlot]
    · simp [UMem.slot, Store.onSlot, hk, Ne.symm hk]
  | head x => cases h; rfl
  | state x => cases h; rfl

theorem head_changes : Buffered.Changes (Store.apply (unboundedOps N L))
    UMem.head Store.onHead := by
  intro e m m' h
  cases e <;> cases h <;> rfl

theorem tail_changes :
    Buffered.Changes (Store.apply (unboundedOps N L)) UMem.tail fun v _ => v := by
  intro e m m' h
  cases e <;> cases h <;> rfl

/-- `seq` after some stores is what it was or what one of them wrote. -/
theorem seq_onSlot (es : List (Store Nat)) (v : Slot) :
    (es.foldl (Store.onSlot N k) v).seq = v.seq ∨
      ∃ pos x, .seq pos x ∈ es ∧ pos % N = k ∧ (es.foldl (Store.onSlot N k) v).seq = x := by
  induction es generalizing v with
  | nil => exact .inl rfl
  | cons e es ih =>
    rw [List.foldl_cons]
    rcases ih (e.onSlot N k v) with h | ⟨pos, x, hmem, hk, h⟩
    · rw [h]
      cases e with
      | seq pos x =>
        by_cases hk : pos % N = k
        · exact .inr ⟨pos, x, List.mem_cons_self, hk, by simp [Store.onSlot, hk]⟩
        · exact .inl (by simp [Store.onSlot, hk])
      | len pos x => exact .inl (by simp only [Store.onSlot]; split <;> rfl)
      | payload pos bs => exact .inl (by simp only [Store.onSlot]; split <;> rfl)
      | head x => exact .inl rfl
      | state x => exact .inl rfl
    · exact .inr ⟨pos, x, List.mem_cons_of_mem _ hmem, hk, h⟩

end Cells

/-! ### What waits -/

/-- Stores of one `push` at position `p` wait, the publishing one last. -/
def Issued (L p : Nat) (published : Prop) : List (Store Nat) → Prop
  | [] => True
  | .len pos _ :: es => pos = p ∧ Issued L p published es
  | .payload pos bs :: es => pos = p ∧ bs.length ≤ L ∧ Issued L p published es
  | .seq pos x :: es => published ∧ pos = p ∧ x = p + 1 ∧ es = []
  | .head _ :: _ | .state _ :: _ => False

/-- Of the consumer the releases of the positions from `c` to `f` wait, and stores of `head`
and `consumer_state`. -/
def Returned (N : Nat) : Nat → Nat → List (Store Nat) → Prop
  | c, f, [] => c = f
  | c, f, .seq pos x :: es => pos = c ∧ x = c + N ∧ Returned N (c + 1) f es
  | c, f, .head _ :: es | c, f, .state _ :: es => Returned N c f es
  | _, _, .len _ _ :: _ | _, _, .payload _ _ :: _ => False

/-- A store that `push` makes at position `p`. -/
def Store.Of (L p : Nat) : Store Nat → Prop
  | .len pos _ => pos = p
  | .payload pos bs => pos = p ∧ bs.length ≤ L
  | .seq pos x => pos = p ∧ x = p + 1
  | .head _ | .state _ => False

/-- A store that the consumer makes while it releases the positions from `c` to `f`. -/
def Store.Back (N c f : Nat) : Store Nat → Prop
  | .seq pos x => c ≤ pos ∧ pos < f ∧ x = pos + N
  | .head _ | .state _ => True
  | .len _ _ | .payload _ _ => False

/-- A message in a store fits. -/
def Store.Fits (L : Nat) : Store Nat → Prop
  | .payload _ bs => bs.length ≤ L
  | _ => True

section Waiting

variable {N L p c f k : Nat} {pub pub' : Prop} {e : Store Nat} {es : List (Store Nat)}

theorem Store.Of.fits (h : e.Of L p) : e.Fits L := by
  cases e with
  | payload pos bs => exact h.2
  | _ => trivial

theorem Store.Of.untouched (h : e.Of L p) (hk : p % N ≠ k) (v : Slot) : e.onSlot N k v = v := by
  cases e with
  | seq pos x => obtain ⟨rfl, _⟩ := h; exact if_neg hk
  | len pos x => obtain rfl : pos = p := h; exact if_neg hk
  | payload pos bs => obtain ⟨rfl, _⟩ := h; exact if_neg hk
  | head x => rfl
  | state x => rfl

theorem Store.Of.not_head (h : e.Of L p) (v : Nat) : Store.onHead v e = v := by
  cases e <;> first | rfl | cases h

theorem Store.Back.fits (h : e.Back N c f) : e.Fits L := by
  cases e with
  | payload pos bs => cases h
  | _ => trivial

theorem Store.Back.untouched (h : e.Back N c f) (hk : ∀ q, c ≤ q → q < f → q % N ≠ k) (v : Slot) :
    e.onSlot N k v = v := by
  cases e with
  | seq pos x => exact if_neg (hk pos h.1 h.2.1)
  | len pos x => cases h
  | payload pos bs => cases h
  | head x => rfl
  | state x => rfl

theorem Issued.mono (h : Issued L p pub es) (hpub : pub → pub') : Issued L p pub' es := by
  induction es with
  | nil => trivial
  | cons e es ih =>
    cases e with
    | seq pos x => exact ⟨hpub h.1, h.2⟩
    | len pos x => exact ⟨h.1, ih h.2⟩
    | payload pos bs => exact ⟨h.1, h.2.1, ih h.2.2⟩
    | head x => cases h
    | state x => cases h

/-- The next store of the call. -/
theorem Issued.snoc (h : Issued L p False es) (he : Issued L p pub [e]) :
    Issued L p pub (es ++ [e]) := by
  induction es with
  | nil => exact he
  | cons e' es ih =>
    cases e' with
    | seq pos x => exact h.1.elim
    | len pos x => exact ⟨h.1, ih h.2⟩
    | payload pos bs => exact ⟨h.1, h.2.1, ih h.2.2⟩
    | head x => cases h
    | state x => cases h

theorem Issued.of (h : Issued L p pub es) : ∀ e ∈ es, e.Of L p := by
  induction es with
  | nil => simp
  | cons e es ih =>
    refine List.forall_mem_cons.mpr ?_
    cases e with
    | seq pos x =>
      obtain ⟨_, hpos, hx, rfl⟩ := h
      exact ⟨⟨hpos, hx⟩, by simp⟩
    | len pos x => exact ⟨h.1, ih h.2⟩
    | payload pos bs => exact ⟨⟨h.1, h.2.1⟩, ih h.2.2⟩
    | head x => cases h
    | state x => cases h

theorem Returned.le (h : Returned N c f es) : c ≤ f := by
  induction es generalizing c with
  | nil => exact Nat.le_of_eq h
  | cons e es ih =>
    cases e with
    | seq pos x => exact Nat.le_of_succ_le (ih h.2.2)
    | head x => exact ih h
    | state x => exact ih h
    | len pos x => cases h
    | payload pos bs => cases h

theorem Returned.back (h : Returned N c f es) : ∀ e ∈ es, e.Back N c f := by
  induction es generalizing c with
  | nil => simp
  | cons e es ih =>
    refine List.forall_mem_cons.mpr ?_
    cases e with
    | seq pos x =>
      obtain ⟨rfl, rfl, h⟩ := h
      refine ⟨⟨Nat.le_refl _, h.le, rfl⟩, fun e he => ?_⟩
      have hback := ih h e he
      cases e with
      | seq q y => exact ⟨Nat.le_of_succ_le hback.1, hback.2⟩
      | len q y => cases hback
      | payload q bs => cases hback
      | head y => trivial
      | state y => trivial
    | head x => exact ⟨trivial, ih h⟩
    | state x => exact ⟨trivial, ih h⟩
    | len pos x => cases h
    | payload pos bs => cases h

/-- The consumer's next store. -/
theorem Returned.snoc {f' : Nat} (h : Returned N c f es) (he : Returned N f f' [e]) :
    Returned N c f' (es ++ [e]) := by
  induction es generalizing c with
  | nil =>
    obtain rfl : c = f := h
    exact he
  | cons e' es ih =>
    cases e' with
    | seq pos x => exact ⟨h.1, h.2.1, ih h.2.2⟩
    | head x => exact ih h
    | state x => exact ih h
    | len pos x => cases h
    | payload pos bs => cases h

end Waiting

/-! ### The memory that lags -/

variable {ι : Type}

/-- How many positions the consumer has seen published. -/
def claimed (s : RingState ι Nat UMem) : Nat :=
  match s.pop with
  | .readLen _ _ | .readPayload _ _ _ | .release _ _ | .storeHead _ _ => s.mem.head + 1
  | _ => s.mem.head

theorem freed_le_claimed (s : RingState ι Nat UMem) : freed s ≤ claimed s := by
  unfold freed claimed
  cases s.pop <;> simp

theorem claimed_le (s : RingState ι Nat UMem) : claimed s ≤ s.mem.head + 1 := by
  unfold claimed
  cases s.pop <;> simp

variable [DecidableEq ι]

/-- What of producer `i` waits: stores at position `p` of its own, which the memory does not
show as published. -/
structure Front (N L : Nat) (u : RingState ι Nat UMem) (log : List (RingEvent ι Nat))
    (w : Buffered (Option ι) (Store Nat) UMem) (i : ι) (p : Nat) : Prop where
  issued : Issued L p ((u.push i).writing = none) (w.buf (some i))
  writing : ∀ data pos, (u.push i).writing = some (data, pos) → pos = p
  waiting : w.buf (some i) ≠ [] →
    w.mem.seq (p % N) = p ∧ freed u ≤ p ∧ ∃ data, (reserves log)[p]? = some (i, data, p)

/-- The buffered memory `w` comes to the memory of `u`; the releases of the positions below `c`
have arrived. -/
structure Behind (N L : Nat) (u : RingState ι Nat UMem) (log : List (RingEvent ι Nat))
    (w : Buffered (Option ι) (Store Nat) UMem) (c : Nat) : Prop where
  tail : w.mem.tail = u.mem.tail
  head : Buffered.Owns UMem.head Store.onHead none u.mem.head w
  slot : ∀ k, ∃ t, Buffered.Owns (UMem.slot k) (Store.onSlot N k) t (u.mem.slot k) w
  front : ∀ i, ∃ p, Front N L u log w i p
  back : Returned N c (freed u) (w.buf none)
  /-- Nobody reserves a position whose slot is not released in the memory. -/
  room : u.mem.tail ≤ c + N
  reserving : ∀ i data pos, u.push i = .cas data pos → pos < c + N
  /-- What the consumer has taken is published in the memory until its release arrives. -/
  shown : ∀ q, c ≤ q → q < claimed u → w.mem.seq (q % N) = q + 1

section Looks

variable {N L c : Nat} {u : RingState ι Nat UMem} {log : List (RingEvent ι Nat)}
  {w : Buffered (Option ι) (Store Nat) UMem} {v : UMem} {q : Nat}

theorem Front.untouched {j : ι} {p : Nat} (h : Front N L u log w j p) (hI : RingInv N L u log)
    (hq : freed u ≤ q) (hq' : q < freed u + N) (hne : w.buf (some j) ≠ [] → p ≠ q) :
    ∀ e ∈ w.buf (some j), ∀ v, Store.onSlot N (q % N) v e = v := by
  intro e he
  have hb := List.ne_nil_of_mem he
  obtain ⟨_, hp, data, hr⟩ := h.waiting hb
  have hlt := hI.reserved_lt hr
  have htail := hI.tail_le
  exact (h.issued.of e he).untouched (window_slot_ne hp (by omega) hq hq' (hne hb))

namespace Behind

omit [DecidableEq ι] in
theorem le (h : Behind N L u log w c) : c ≤ freed u := h.back.le

omit [DecidableEq ι] in
/-- The consumer's stores are to slots of positions that it has released. -/
theorem back_untouched (h : Behind N L u log w c) (hq : freed u ≤ q) (hq' : q < c + N) :
    ∀ e ∈ w.buf none, ∀ v, Store.onSlot N (q % N) v e = v := by
  intro e he
  have hle := h.le
  refine (h.back.back e he).untouched fun p hp hp' => ?_
  exact window_slot_ne hp (by omega) (by omega) hq' (by omega)

/-- The slot of a reserved position is its producer's. -/
theorem owned_by_producer (h : Behind N L u log w c) (hI : RingInv N L u log) {i : ι}
    {data : List UInt8} (hq : freed u ≤ q) (hr : (reserves log)[q]? = some (i, data, q)) :
    Buffered.Owns (UMem.slot (q % N)) (Store.onSlot N (q % N)) (some i) (u.mem.slot (q % N)) w := by
  have hlt := hI.reserved_lt hr
  have htail := hI.tail_le
  have hroom := h.room
  obtain ⟨t, ho⟩ := h.slot (q % N)
  cases t with
  | none => exact ho.pass (h.back_untouched hq (by omega))
  | some j =>
    by_cases hj : j = i
    · rwa [← hj]
    · obtain ⟨p, hF⟩ := h.front j
      refine ho.pass (hF.untouched hI hq (by omega) fun hb => ?_)
      rintro rfl
      obtain ⟨_, _, _, hr'⟩ := hF.waiting hb
      rw [hr] at hr'
      cases hr'
      exact hj rfl

/-- A slot that the memory does not show as free is no producer's. -/
theorem owned_by_consumer (h : Behind N L u log w c) (hI : RingInv N L u log)
    (hq : freed u ≤ q) (hq' : q < freed u + N) (hs : w.mem.seq (q % N) ≠ q) :
    Buffered.Owns (UMem.slot (q % N)) (Store.onSlot N (q % N)) none (u.mem.slot (q % N)) w := by
  obtain ⟨t, ho⟩ := h.slot (q % N)
  cases t with
  | none => exact ho
  | some j =>
    obtain ⟨p, hF⟩ := h.front j
    refine ho.pass (hF.untouched hI hq hq' fun hb => ?_)
    rintro rfl
    exact hs (hF.waiting hb).1

/-- The memory shows every position of its own window as free or as published. -/
theorem mem_seq (h : Behind N L u log w c) (hI : RingInv N L u log) (hq : c ≤ q) (hq' : q < c + N) :
    w.mem.seq (q % N) = q ∨ w.mem.seq (q % N) = q + 1 := by
  have hle := h.le
  rcases Nat.lt_or_ge q (freed u) with hlt | hge
  · exact .inr (h.shown q hq (Nat.lt_of_lt_of_le hlt (freed_le_claimed u)))
  · have hwin : q < freed u + N := by omega
    -- without stores waiting the slot is as the ring left it
    have hsame : ∀ {t}, Buffered.Owns (UMem.slot (q % N)) (Store.onSlot N (q % N)) t
        (u.mem.slot (q % N)) w → (∀ e ∈ w.buf t, ∀ v, Store.onSlot N (q % N) v e = v) →
        w.mem.seq (q % N) = q ∨ w.mem.seq (q % N) = q + 1 := by
      intro t ho hun
      have heq : w.mem.seq (q % N) = u.mem.seq (q % N) := by
        have hmade := ho.made
        rw [Buffered.foldl_untouched hun] at hmade
        exact congrArg Slot.seq hmade
      rw [heq]
      rcases hI.slot q hge hwin with ⟨hs, _⟩ | ⟨hs, _⟩
      · exact .inl hs
      · exact .inr hs
    obtain ⟨t, ho⟩ := h.slot (q % N)
    cases t with
    | none => exact hsame ho (h.back_untouched hge hq')
    | some j =>
      obtain ⟨p, hF⟩ := h.front j
      by_cases hp : w.buf (some j) ≠ [] ∧ p = q
      · obtain ⟨hb, rfl⟩ := hp
        exact .inl (hF.waiting hb).1
      · exact hsame ho (hF.untouched hI hge hwin fun hb heq => hp ⟨hb, heq⟩)

omit [DecidableEq ι] in
theorem view_slot {t : Option ι}
    (hv : w.view (Store.apply (unboundedOps N L)) t = some v) (k : Nat) :
    v.slot k = (w.buf t).foldl (Store.onSlot N k) (w.mem.slot k) :=
  slot_changes.view hv

/-- And so does every producer see it. -/
theorem view_seq (h : Behind N L u log w c) (hI : RingInv N L u log) {i : ι}
    (hv : w.view (Store.apply (unboundedOps N L)) (some i) = some v) (hq : c ≤ q)
    (hq' : q < c + N) :
    v.seq (q % N) = q ∨ v.seq (q % N) = q + 1 := by
  have hslot : v.seq (q % N) = (v.slot (q % N)).seq := rfl
  rw [hslot, view_slot hv]
  rcases seq_onSlot (w.buf (some i)) (w.mem.slot (q % N)) with hs | ⟨pos, x, hmem, hpos, hs⟩
  · rw [hs]
    exact h.mem_seq hI hq hq'
  · rw [hs]
    obtain ⟨p, hF⟩ := h.front i
    obtain ⟨rfl, rfl⟩ : pos = p ∧ x = p + 1 := hF.issued.of _ hmem
    obtain ⟨_, hp, _, hr⟩ := hF.waiting (List.ne_nil_of_mem hmem)
    have hlt := hI.reserved_lt hr
    have hle := h.le
    have hroom := h.room
    obtain rfl : pos = q := by
      by_contra hne
      exact window_slot_ne (f := c) (by omega) (by omega) hq hq' hne hpos
    exact .inr rfl

/-- What `seq` may show to any thread. -/
theorem seq_bound (h : Behind N L u log w c) (hI : RingInv N L u log) (hN : 0 < N) {t : Option ι}
    (hv : w.view (Store.apply (unboundedOps N L)) t = some v) (pos : Nat) :
    c ≤ v.seq (pos % N) ∧ v.seq (pos % N) ≤ freed u + N := by
  have hle := h.le
  have hroom := h.room
  have hslot : v.seq (pos % N) = (v.slot (pos % N)).seq := rfl
  rw [hslot, view_slot hv]
  rcases seq_onSlot (w.buf t) (w.mem.slot (pos % N)) with hs | ⟨p, x, hmem, _, hs⟩
  · rw [hs]
    -- the position of the memory's window that shares the slot with pos
    obtain ⟨q, hq, hq', hqN⟩ : ∃ q, c ≤ q ∧ q < c + N ∧ q % N = pos % N := by
      refine ⟨c + (pos + (N - 1) * c) % N, Nat.le_add_right _ _,
        Nat.add_lt_add_left (Nat.mod_lt _ hN) _, ?_⟩
      have hsum : c + (pos + (N - 1) * c) = pos + N * c := by
        obtain ⟨n, rfl⟩ : ∃ n, N = n + 1 := ⟨N - 1, by omega⟩
        rw [Nat.add_sub_cancel, Nat.succ_mul]
        omega
      rw [Nat.add_mod_mod, hsum, Nat.add_mul_mod_self_left]
    rw [← hqN]
    have hseq : (w.mem.slot (q % N)).seq = w.mem.seq (q % N) := rfl
    rw [hseq]
    rcases h.mem_seq hI hq hq' with hs | hs <;> omega
  · rw [hs]
    cases t with
    | none =>
      obtain ⟨hp, hp', rfl⟩ : c ≤ p ∧ p < freed u ∧ x = p + N := h.back.back _ hmem
      omega
    | some i =>
      obtain ⟨p', hF⟩ := h.front i
      obtain ⟨rfl, rfl⟩ : p = p' ∧ x = p' + 1 := hF.issued.of _ hmem
      obtain ⟨_, hp, _, hr⟩ := hF.waiting (List.ne_nil_of_mem hmem)
      have hlt := hI.reserved_lt hr
      omega

/-- `diff = 0` on a tail that was read before: the release of the slot has arrived. -/
theorem free_of_seq_eq (h : Behind N L u log w c) (hI : RingInv N L u log) (hN : 2 ≤ N) {i : ι}
    (hv : w.view (Store.apply (unboundedOps N L)) (some i) = some v) {pos : Nat}
    (hpos : pos ≤ u.mem.tail) (hs : v.seq (pos % N) = pos) : pos < c + N := by
  by_contra hge
  have hroom := h.room
  obtain rfl : pos = c + N := by omega
  rw [Nat.add_mod_right] at hs
  rcases h.view_seq hI hv (Nat.le_refl c) (by omega) with hs' | hs' <;> omega

omit [DecidableEq ι] in
/-- A position that the consumer sees published is published in the memory. -/
theorem mem_of_published (h : Behind N L u log w c) (hN : 2 ≤ N)
    (hv : w.view (Store.apply (unboundedOps N L)) none = some v)
    (hs : v.seq (q % N) = q + 1) : w.mem.seq (q % N) = q + 1 := by
  have hslot : v.seq (q % N) = (v.slot (q % N)).seq := rfl
  rw [hslot, view_slot hv] at hs
  rcases seq_onSlot (w.buf none) (w.mem.slot (q % N)) with hs' | ⟨pos, x, hmem, hpos, hs'⟩
  · exact hs'.symm.trans hs
  · -- its own releases write positions of the slot, never one more
    obtain ⟨_, _, rfl⟩ : c ≤ pos ∧ pos < freed u ∧ x = pos + N := h.back.back _ hmem
    have hx : pos + N = q + 1 := hs'.symm.trans hs
    have hmod : (q + 1) % N = q % N := by
      rw [← hx, Nat.add_mod_right, hpos]
    exact absurd hmod (window_slot_ne (f := q) (by omega) (by omega) (Nat.le_refl q)
      (by omega) (by omega))

/-- What the consumer has claimed it reads as the ring has it. -/
theorem view_of_published (h : Behind N L u log w c) (hI : RingInv N L u log) (hN : 0 < N)
    (hv : w.view (Store.apply (unboundedOps N L)) none = some v)
    (hs : w.mem.seq (freed u % N) = freed u + 1) :
    v.slot (freed u % N) = u.mem.slot (freed u % N) :=
  (h.owned_by_consumer hI (Nat.le_refl _) (by omega) (by omega)).view slot_changes hv

end Behind

end Looks

end ShmMpsc
