import Mathlib.Logic.Relation
import ShmMpsc.Ring.Solo

/-!
# Calls one after the other

Complete, non-overlapping calls against a bounded FIFO queue. One slot is too few: its
`seq` after a push, `pos + 1`, is also what a free slot shows to the next push.
-/

namespace ShmMpsc

set_option autoImplicit false

open RingConfig

/-! ### Complete calls -/

inductive SeqOp where
  | push (data : List UInt8)
  | pop (out : List UInt8)

inductive SeqRes (W : Type) where
  | push (r : Except PushErr W)
  | pop (r : Option W) (out : List UInt8)

section Calls

variable {W M : Type}

/-- Some `push` steps, undisturbed; the weak compare-exchange may fail spuriously. -/
def PushSteps (ops : SegOps W M) : PushPc W × M → PushPc W × M → Prop :=
  Relation.ReflTransGen fun c c' =>
    ∃ spurious ev, pushStep ops spurious c.1 c.2 = some (c'.1, c'.2, ev)

def PopSteps [DecidableEq W] (ops : SegOps W M) : PopPc W × M → PopPc W × M → Prop :=
  Relation.ReflTransGen fun c c' => ∃ ev, popStep ops c.1 c.2 = some (c'.1, c'.2, ev)

theorem PushPath.steps {ops : SegOps W M} {near : M → PushPc W → Prop} {pc pc' : PushPc W}
    {m m' : M} {evs : List (PushEvent W)} (h : PushPath ops near pc m evs pc' m') :
    PushSteps ops (pc, m) (pc', m') := by
  induction h with
  | nil => exact .refl
  | cons _ ht _ ih => exact .head ⟨false, _, ht.step⟩ ih

theorem PopPath.steps [DecidableEq W] {ops : SegOps W M} {near : M → PopPc W → Prop}
    {pc pc' : PopPc W} {m m' : M} {evs : List (PopEvent W)} (h : PopPath ops near pc m evs pc' m') :
    PopSteps ops (pc, m) (pc', m') := by
  induction h with
  | nil => exact .refl
  | cons _ ht _ ih => exact .head ⟨_, ht.step⟩ ih

/-- A complete call, its result and the memory it leaves. -/
inductive Returns [DecidableEq W] (ops : SegOps W M) (m : M) : SeqOp → SeqRes W → M → Prop where
  | push {data r m'} : PushSteps ops (pushCall ops data, m) (.done r, m') →
      Returns ops m (.push data) (.push r) m'
  | pop {out r out' m'} : PopSteps ops (.loadHead out, m) (.done r out', m') →
      Returns ops m (.pop out) (.pop r out') m'

/-- Complete calls in sequence, with their results. -/
inductive SeqRun [DecidableEq W] (ops : SegOps W M) (m : M) :
    List (SeqOp × SeqRes W) → M → Prop where
  | nil : SeqRun ops m [] m
  | snoc {hist m' op res m''} : SeqRun ops m hist m' → Returns ops m' op res m'' →
      SeqRun ops m (hist ++ [(op, res)]) m''

end Calls

/-! ### The queue -/

/-- A FIFO queue of at most `N` messages, with the number of messages that ever entered. -/
structure Fifo (N : Nat) where
  pushed : Nat
  waiting : List (List UInt8)
  bound : waiting.length ≤ N

namespace Fifo

variable {N : Nat}

def empty (N : Nat) : Fifo N := { pushed := 0, waiting := [], bound := Nat.zero_le N }

/-- One call on a queue of messages of at most `L` bytes. -/
def step (L : Nat) (q : Fifo N) : SeqOp → SeqRes Nat × Fifo N
  | .push data =>
    if L < data.length then (.push (.error .tooBig), q)
    else if h : q.waiting.length < N then
      (.push (.ok q.pushed),
        { pushed := q.pushed + 1, waiting := q.waiting ++ [data],
          bound := by simpa [Nat.succ_le_iff] using h })
    else (.push (.error .full), q)
  | .pop out =>
    match h : q.waiting with
    | [] => (.pop none out, q)
    | data :: rest =>
      (.pop (some (q.pushed - q.waiting.length)) data,
        { pushed := q.pushed, waiting := rest,
          bound := by
            have hb := q.bound
            rw [h] at hb
            exact Nat.le_of_succ_le hb })

def after (L : Nat) (q : Fifo N) (ops : List SeqOp) : Fifo N :=
  ops.foldl (fun q op => (q.step L op).2) q

def results (L : Nat) : Fifo N → List SeqOp → List (SeqRes Nat)
  | _, [] => []
  | q, op :: ops => (q.step L op).1 :: results L (q.step L op).2 ops

theorem after_append (L : Nat) (q : Fifo N) (ops : List SeqOp) (op : SeqOp) :
    q.after L (ops ++ [op]) = ((q.after L ops).step L op).2 := by
  simp [after]

theorem results_append (L : Nat) (q : Fifo N) (ops : List SeqOp) (op : SeqOp) :
    q.results L (ops ++ [op]) = q.results L ops ++ [((q.after L ops).step L op).1] := by
  induction ops generalizing q with
  | nil => rfl
  | cons o ops ih => simp [results, after, ih]

end Fifo

def SeqRes.map {W V : Type} (f : W → V) : SeqRes W → SeqRes V
  | .push r => .push (r.map f)
  | .pop r out => .pop (r.map f) out

/-- From `init` every sequence of complete calls has the results of a queue of `num_slots`
messages, and every further call returns. -/
def SeqFifo (cfg : RingConfig) : Prop :=
  ∀ m m0, m.size = cfg.total.toNat → init cfg m = some m0 →
    ∀ hist m', SeqRun (segOps cfg) m0 hist m' →
      hist.map Prod.snd = ((Fifo.empty cfg.N).results (cfg.S - 20) (hist.map Prod.fst)).map
        (SeqRes.map UInt64.ofNat) ∧
      ∀ op, ∃ res m'', Returns (segOps cfg) m' op res m''

/-! ### One call against the unbounded memory -/

section Solo

variable {cfg : RingConfig}

/-- Where an undisturbed push can be: the memory it started from is `u`. -/
def SoloPush (cfg : RingConfig) (u : UMem) (data : List UInt8) : PushPc UInt64 → Memory → Prop
  | .idle, _ => False
  | .loadTail d, m => d = data ∧ MemSim cfg m u
  | .loadSeq d pos, m => d = data ∧ pos = UInt64.ofNat u.tail ∧ MemSim cfg m u
  | .cas d pos, m => d = data ∧ pos = UInt64.ofNat u.tail ∧ u.seq (u.tail % cfg.N) = u.tail ∧
      MemSim cfg m u
  | .writeLen d pos, m => d = data ∧ pos = UInt64.ofNat u.tail ∧
      u.seq (u.tail % cfg.N) = u.tail ∧ MemSim cfg m { u with tail := u.tail + 1 }
  | .writePayload d pos, m => d = data ∧ pos = UInt64.ofNat u.tail ∧
      u.seq (u.tail % cfg.N) = u.tail ∧ MemSim cfg m { u with
        tail := u.tail + 1
        len := Function.update u.len (u.tail % cfg.N) (UInt32.ofNat data.length) }
  | .publish d pos, m => d = data ∧ pos = UInt64.ofNat u.tail ∧
      u.seq (u.tail % cfg.N) = u.tail ∧ MemSim cfg m { u with
        tail := u.tail + 1
        len := Function.update u.len (u.tail % cfg.N) (UInt32.ofNat data.length)
        payload := Function.update u.payload (u.tail % cfg.N) fun j =>
          data[j]?.getD (u.payload (u.tail % cfg.N) j) }
  | .done r, m =>
      (u.seq (u.tail % cfg.N) = u.tail ∧ r = .ok (UInt64.ofNat u.tail) ∧
        MemSim cfg m (u.pushed cfg.N data)) ∨
      (u.seq (u.tail % cfg.N) < u.tail ∧ r = .error .full ∧ MemSim cfg m u)

variable (hg : cfg.Admitted) (hf : cfg.Fits) {u : UMem} {m m' : Memory} {data : List UInt8}

/-- The slot of `tail` is free or shows an older position. -/
structure TailSlot (cfg : RingConfig) (u : UMem) : Prop where
  le : u.seq (u.tail % cfg.N) ≤ u.tail
  near : u.tail ≤ u.seq (u.tail % cfg.N) + 2 ^ 63

include hg hf

theorem SoloPush.step (ht : TailSlot cfg u) (hlen : data.length ≤ cfg.S - 20)
    {pc pc' : PushPc UInt64} {spurious : Bool} {ev : List (PushEvent UInt64)}
    (h : SoloPush cfg u data pc m)
    (hs : pushStep (segOps cfg) spurious pc m = some (pc', m', ev)) :
    SoloPush cfg u data pc' m' := by
  have hnear := ht.near
  have hle := ht.le
  have hmin : 20 < cfg.S := hg.min
  -- the step is the one that the unbounded memory dictates
  have hsame : ∀ (upc : PushPc Nat) {v v' : UMem} {upc' : PushPc Nat} {uev : List (PushEvent Nat)},
      MemSim cfg m v → PushNear cfg v upc → PushTrans (unbounded cfg) spurious upc v upc' v' uev →
      upc.map UInt64.ofNat = pc → pc' = upc'.map UInt64.ofNat ∧ MemSim cfg m' v' := by
    intro upc v v' upc' uev hv hn ht hpc
    obtain ⟨m1, ht1, hm1⟩ := push_sim hg hf hv hn ht
    rw [hpc] at ht1
    rw [ht1.step] at hs
    cases hs
    exact ⟨rfl, hm1⟩
  cases pc with
  | idle => cases h
  | loadTail d =>
    obtain ⟨rfl, hm⟩ := h
    obtain ⟨rfl, hm'⟩ := hsame (.loadTail d) hm trivial (.loadTail rfl) rfl
    exact ⟨rfl, rfl, hm'⟩
  | loadSeq d pos =>
    obtain ⟨rfl, rfl, hm⟩ := h
    have hn : PushNear cfg u (.loadSeq d u.tail) := ⟨by omega, by omega⟩
    rcases Nat.eq_or_lt_of_le hle with heq | hlt
    · obtain ⟨rfl, hm'⟩ :=
        hsame (.loadSeq d u.tail) hm hn (.free rfl (by simp [unboundedOps, heq])) rfl
      exact ⟨rfl, rfl, heq, hm'⟩
    · have hd : (unbounded cfg).diff (u.seq (u.tail % cfg.N)) u.tail < 0 := by
        show (u.seq (u.tail % cfg.N) : Int) - u.tail < 0
        omega
      obtain ⟨rfl, hm'⟩ := hsame (.loadSeq d u.tail) hm hn (.full rfl hd) rfl
      exact .inr ⟨hlt, rfl, hm'⟩
  | cas d pos =>
    obtain ⟨rfl, rfl, hseq, hm⟩ := h
    have hn : PushNear cfg u (.cas d u.tail) := ⟨by omega, by omega⟩
    cases hsp : spurious with
    | true =>
      obtain ⟨rfl, hm'⟩ := hsame (.cas d u.tail) hm hn (.spurious hsp) rfl
      exact ⟨rfl, hm'⟩
    | false =>
      obtain ⟨rfl, hm'⟩ := hsame (.cas d u.tail) hm hn (.won hsp (if_pos rfl)) rfl
      exact ⟨rfl, rfl, hseq, hm'⟩
  | writeLen d pos =>
    obtain ⟨rfl, rfl, hseq, hm⟩ := h
    obtain ⟨rfl, hm'⟩ := hsame (.writeLen d u.tail) hm trivial (.writeLen rfl) rfl
    exact ⟨rfl, rfl, hseq, hm'⟩
  | writePayload d pos =>
    obtain ⟨rfl, rfl, hseq, hm⟩ := h
    have hn : d.length ≤ cfg.S - 16 := by omega
    obtain ⟨rfl, hm'⟩ := hsame (.writePayload d u.tail) hm hn (.writePayload rfl) rfl
    exact ⟨rfl, rfl, hseq, hm'⟩
  | publish d pos =>
    obtain ⟨rfl, rfl, hseq, hm⟩ := h
    obtain ⟨rfl, hm'⟩ := hsame (.publish d u.tail) hm trivial (.publish rfl) rfl
    exact .inl ⟨hseq, rfl, hm'⟩
  | done r => cases hs

theorem push_result (ht : TailSlot cfg u) (hlen : data.length ≤ cfg.S - 20) (hm : MemSim cfg m u)
    {r : Except PushErr UInt64}
    (h : PushSteps (segOps cfg) (.loadTail data, m) (.done r, m')) :
    (u.seq (u.tail % cfg.N) = u.tail ∧ r = .ok (UInt64.ofNat u.tail) ∧
      MemSim cfg m' (u.pushed cfg.N data)) ∨
    (u.seq (u.tail % cfg.N) < u.tail ∧ r = .error .full ∧ MemSim cfg m' u) := by
  have hsolo : ∀ c, PushSteps (segOps cfg) (.loadTail data, m) c → SoloPush cfg u data c.1 c.2 := by
    intro c hc
    induction hc with
    | refl => exact ⟨rfl, hm⟩
    | tail _ hs ih =>
      obtain ⟨spurious, ev, hs⟩ := hs
      exact ih.step hg hf ht hlen hs
  exact hsolo _ h

theorem push_returns (ht : TailSlot cfg u) (hlen : data.length ≤ cfg.S - 20) (hm : MemSim cfg m u) :
    ∃ r m', PushSteps (segOps cfg) (.loadTail data, m) (.done r, m') := by
  rcases Nat.eq_or_lt_of_le ht.le with heq | hlt
  · obtain ⟨m', _, hp⟩ := (soloPush_path hlen heq).sim hg hf m hm
    exact ⟨_, m', hp.steps⟩
  · obtain ⟨m', _, hp⟩ := (fullPush_path hlt ht.near).sim hg hf m hm
    exact ⟨_, m', hp.steps⟩

omit hg hf in
/-- The slot of `head` is published with a message that fits, or is about to be. -/
structure HeadSlot (cfg : RingConfig) (u : UMem) : Prop where
  le : u.head ≤ u.seq (u.head % cfg.N)
  near : u.seq (u.head % cfg.N) ≤ u.head + 1
  len : u.seq (u.head % cfg.N) = u.head + 1 → (u.len (u.head % cfg.N)).toNat ≤ cfg.S - 16

/-- Where an undisturbed pop can be. -/
def SoloPop (cfg : RingConfig) (u : UMem) (out : List UInt8) : PopPc UInt64 → Memory → Prop
  | .idle, _ => False
  | .loadHead o, m => o = out ∧ MemSim cfg m u
  | .loadSeq o head, m => o = out ∧ head = UInt64.ofNat u.head ∧ MemSim cfg m u
  | .readLen _ head, m => head = UInt64.ofNat u.head ∧
      u.seq (u.head % cfg.N) = u.head + 1 ∧ MemSim cfg m u
  | .readPayload _ head len, m => head = UInt64.ofNat u.head ∧
      u.seq (u.head % cfg.N) = u.head + 1 ∧ len = (u.len (u.head % cfg.N)).toNat ∧ MemSim cfg m u
  | .release o head, m => head = UInt64.ofNat u.head ∧
      u.seq (u.head % cfg.N) = u.head + 1 ∧ o = headBytes cfg u ∧ MemSim cfg m u
  | .storeHead o head, m => head = UInt64.ofNat u.head ∧
      u.seq (u.head % cfg.N) = u.head + 1 ∧ o = headBytes cfg u ∧ MemSim cfg m { u with
        seq := Function.update u.seq (u.head % cfg.N) (u.head + cfg.N) }
  | .done r o, m =>
      (u.seq (u.head % cfg.N) = u.head + 1 ∧ r = some (UInt64.ofNat u.head) ∧
        o = headBytes cfg u ∧ MemSim cfg m (u.popped cfg.N)) ∨
      (u.seq (u.head % cfg.N) ≠ u.head + 1 ∧ r = none ∧ o = out ∧ MemSim cfg m u)

theorem SoloPop.step (hh : HeadSlot cfg u) {out : List UInt8} {pc pc' : PopPc UInt64}
    {ev : List (PopEvent UInt64)} (h : SoloPop cfg u out pc m)
    (hs : popStep (segOps cfg) pc m = some (pc', m', ev)) : SoloPop cfg u out pc' m' := by
  have hle := hh.le
  have hnear := hh.near
  have hsame : ∀ (upc : PopPc Nat) {v v' : UMem} {upc' : PopPc Nat} {uev : List (PopEvent Nat)},
      MemSim cfg m v → PopNear cfg v upc → PopTrans (unbounded cfg) upc v upc' v' uev →
      upc.map UInt64.ofNat = pc → pc' = upc'.map UInt64.ofNat ∧ MemSim cfg m' v' := by
    intro upc v v' upc' uev hv hn ht hpc
    obtain ⟨m1, ht1, hm1⟩ := pop_sim hg hf hv hn ht
    rw [hpc] at ht1
    rw [ht1.step] at hs
    cases hs
    exact ⟨rfl, hm1⟩
  cases pc with
  | idle => cases h
  | loadHead o =>
    obtain ⟨rfl, hm⟩ := h
    obtain ⟨rfl, hm'⟩ := hsame (.loadHead o) hm trivial (.loadHead rfl) rfl
    exact ⟨rfl, rfl, hm'⟩
  | loadSeq o head =>
    obtain ⟨rfl, rfl, hm⟩ := h
    have hn : PopNear cfg u (.loadSeq o u.head) := ⟨by omega, by omega⟩
    by_cases hseq : u.seq (u.head % cfg.N) = u.head + 1
    · obtain ⟨rfl, hm'⟩ := hsame (.loadSeq o u.head) hm hn (.ready (congrArg some hseq)) rfl
      exact ⟨rfl, hseq, hm'⟩
    · obtain ⟨rfl, hm'⟩ := hsame (.loadSeq o u.head) hm hn (.empty rfl hseq) rfl
      exact .inr ⟨hseq, rfl, rfl, hm'⟩
  | readLen o head =>
    obtain ⟨rfl, hseq, hm⟩ := h
    obtain ⟨rfl, hm'⟩ := hsame (.readLen o u.head) hm trivial (.readLen rfl) rfl
    exact ⟨rfl, hseq, rfl, hm'⟩
  | readPayload o head len =>
    obtain ⟨rfl, hseq, rfl, hm⟩ := h
    have hn := hh.len hseq
    obtain ⟨rfl, hm'⟩ := hsame (.readPayload o u.head _) hm hn (.readPayload rfl) rfl
    exact ⟨rfl, hseq, rfl, hm'⟩
  | release o head =>
    obtain ⟨rfl, hseq, ho, hm⟩ := h
    obtain ⟨rfl, hm'⟩ := hsame (.release o u.head) hm trivial (.release rfl) rfl
    exact ⟨rfl, hseq, ho, hm'⟩
  | storeHead o head =>
    obtain ⟨rfl, hseq, ho, hm⟩ := h
    obtain ⟨rfl, hm'⟩ := hsame (.storeHead o u.head) hm trivial (.storeHead rfl) rfl
    exact .inl ⟨hseq, rfl, ho, hm'⟩
  | done r o => cases hs

theorem pop_result (hh : HeadSlot cfg u) (hm : MemSim cfg m u) {out o : List UInt8}
    {r : Option UInt64} (h : PopSteps (segOps cfg) (.loadHead out, m) (.done r o, m')) :
    (u.seq (u.head % cfg.N) = u.head + 1 ∧ r = some (UInt64.ofNat u.head) ∧
      o = headBytes cfg u ∧ MemSim cfg m' (u.popped cfg.N)) ∨
    (u.seq (u.head % cfg.N) ≠ u.head + 1 ∧ r = none ∧ o = out ∧ MemSim cfg m' u) := by
  have hsolo : ∀ c, PopSteps (segOps cfg) (.loadHead out, m) c → SoloPop cfg u out c.1 c.2 := by
    intro c hc
    induction hc with
    | refl => exact ⟨rfl, hm⟩
    | tail _ hs ih =>
      obtain ⟨ev, hs⟩ := hs
      exact ih.step hg hf hh hs
  exact hsolo _ h

theorem pop_returns (hh : HeadSlot cfg u) (hm : MemSim cfg m u) (out : List UInt8) :
    ∃ r o m', PopSteps (segOps cfg) (.loadHead out, m) (.done r o, m') := by
  have hle := hh.le
  have hnear := hh.near
  by_cases hseq : u.seq (u.head % cfg.N) = u.head + 1
  · obtain ⟨m', _, hp⟩ := (soloPop_path (hh.len hseq) hseq).sim hg hf m hm
    exact ⟨_, _, m', hp.steps⟩
  · have hload : PopNear cfg u (.loadSeq out u.head) := ⟨by omega, by omega⟩
    obtain ⟨m', _, hp⟩ := (emptyPop_path hseq hload).sim hg hf m hm
    exact ⟨_, _, m', hp.steps⟩

end Solo

/-! ### The queue in the memory -/

/-- Between two calls: the messages waiting are in the slots from `head` on, the other slots
are free for the positions from `tail` on. -/
structure SeqInv (cfg : RingConfig) (u : UMem) (q : Fifo cfg.N) : Prop where
  tail : u.tail = q.pushed
  head : u.head + q.waiting.length = q.pushed
  published : ∀ (j : Nat) data, q.waiting[j]? = some data →
    u.seq ((u.head + j) % cfg.N) = u.head + j + 1 ∧ Holds cfg.N u (u.head + j) data ∧
      data.length ≤ cfg.S - 20
  free : ∀ j, q.waiting.length ≤ j → j < cfg.N → u.seq ((u.head + j) % cfg.N) = u.head + j

namespace SeqInv

variable {cfg : RingConfig} {u : UMem} {q : Fifo cfg.N}

theorem start (cfg : RingConfig) (len : Nat → UInt32) (payload : Nat → Nat → UInt8) :
    SeqInv cfg (UMem.start cfg.N len payload) (Fifo.empty cfg.N) where
  tail := rfl
  head := rfl
  published := by simp [Fifo.empty]
  free := by
    intro j _ hj
    simp [UMem.start, Nat.mod_eq_of_lt hj, hj]

theorem seq_tail (h : SeqInv cfg u q) (hroom : q.waiting.length < cfg.N) :
    u.seq (u.tail % cfg.N) = u.tail := by
  have htail : u.tail = u.head + q.waiting.length := by rw [h.tail, h.head]
  rw [htail]
  exact h.free _ (Nat.le_refl _) hroom

theorem seq_tail_full (h : SeqInv cfg u q) (hN : 0 < cfg.N) (hfull : q.waiting.length = cfg.N) :
    u.tail = u.head + cfg.N ∧ u.seq (u.tail % cfg.N) = u.head + 1 := by
  have htail : u.tail = u.head + cfg.N := by rw [h.tail, ← h.head, hfull]
  obtain ⟨data, hd⟩ : ∃ data, q.waiting[0]? = some data :=
    ⟨_, List.getElem?_eq_getElem (by omega)⟩
  refine ⟨htail, ?_⟩
  rw [htail, Nat.add_mod_right]
  exact (h.published 0 data hd).1

theorem tailSlot (h : SeqInv cfg u q) (hg : cfg.Admitted) (hN : 2 ≤ cfg.N) : TailSlot cfg u := by
  have hN64 : cfg.N ≤ 2 ^ 63 := hg.numSlots_le
  rcases Nat.lt_or_eq_of_le q.bound with hroom | hfull
  · have hseq := h.seq_tail hroom
    exact ⟨by omega, by omega⟩
  · obtain ⟨htail, hseq⟩ := h.seq_tail_full (by omega) hfull
    exact ⟨by omega, by omega⟩

theorem headSlot (h : SeqInv cfg u q) (hN : 0 < cfg.N) : HeadSlot cfg u := by
  cases hq : q.waiting with
  | nil =>
    have hseq := h.free 0 (by simp [hq]) hN
    rw [Nat.add_zero] at hseq
    exact ⟨by omega, by omega, by omega⟩
  | cons data rest =>
    obtain ⟨hseq, hh, hlen⟩ := h.published 0 data (by simp [hq])
    rw [Nat.add_zero] at hseq hh
    refine ⟨by omega, by omega, fun _ => ?_⟩
    have hmod := Nat.mod_le data.length (2 ^ 32)
    rw [hh.len, UInt32.toNat_ofNat']
    omega

theorem push (h : SeqInv cfg u q) {data : List UInt8} (hlen : data.length ≤ cfg.S - 20)
    (hroom : q.waiting.length < cfg.N) :
    SeqInv cfg (u.pushed cfg.N data) (q.step (cfg.S - 20) (.push data)).2 := by
  have htail : u.tail = u.head + q.waiting.length := by rw [h.tail, h.head]
  have hstep : (q.step (cfg.S - 20) (.push data)).2.pushed = q.pushed + 1 ∧
      (q.step (cfg.S - 20) (.push data)).2.waiting = q.waiting ++ [data] := by
    rw [Fifo.step, if_neg (by omega), dif_pos hroom]
    exact ⟨rfl, rfl⟩
  -- the slots of the other positions of the lap are left alone
  have hne : ∀ j, j < cfg.N → j ≠ q.waiting.length → (u.head + j) % cfg.N ≠ u.tail % cfg.N := by
    intro j hj hjw
    exact window_slot_ne (f := u.head) (by omega) (by omega) (by omega) (by omega) (by omega)
  constructor
  · rw [hstep.1]
    show u.tail + 1 = _
    rw [h.tail]
  · rw [hstep.1, hstep.2, List.length_append]
    show u.head + _ = _
    have := h.head
    simp only [List.length_singleton]
    omega
  · intro j d hd
    rw [hstep.2, List.getElem?_append] at hd
    split at hd
    · rename_i hj
      have hs := hne j (by omega) (by omega)
      obtain ⟨h1, h2, h3⟩ := h.published j d hd
      exact ⟨(Function.update_of_ne hs _ _).trans h1, ⟨(Function.update_of_ne hs _ _).trans h2.len,
        by simpa [UMem.pushed, Function.update_of_ne hs] using h2.bytes⟩, h3⟩
    · rename_i hj
      have hj0 : j - q.waiting.length = 0 := by
        have := (List.getElem?_eq_some_iff.mp hd).1
        simpa using this
      rw [hj0] at hd
      cases hd
      have hpos : (u.pushed cfg.N data).head + j = u.tail := by
        show u.head + j = _
        omega
      have hbytes : (List.range data.length).map
          ((u.pushed cfg.N data).payload (u.tail % cfg.N)) = data := by
        simp only [UMem.pushed, Function.update_self]
        exact List.ext_get (by simp) fun k h1 h2 => by simp [h2]
      rw [hpos]
      exact ⟨Function.update_self .., ⟨Function.update_self .., hbytes⟩, hlen⟩
  · intro j hj hjN
    rw [hstep.2, List.length_append, List.length_singleton] at hj
    have hs := hne j hjN (by omega)
    exact (Function.update_of_ne hs _ _).trans (h.free j (by omega) hjN)

theorem pop (h : SeqInv cfg u q) {data out : List UInt8} {rest : List (List UInt8)}
    (hq : q.waiting = data :: rest) :
    SeqInv cfg (u.popped cfg.N) (q.step (cfg.S - 20) (.pop out)).2 := by
  have hstep : (q.step (cfg.S - 20) (.pop out)).2.pushed = q.pushed ∧
      (q.step (cfg.S - 20) (.pop out)).2.waiting = rest := by
    unfold Fifo.step
    dsimp only
    split
    · simp_all
    · simp_all
  have hlen : q.waiting.length = rest.length + 1 := by rw [hq]; rfl
  have hN := q.bound
  have hne : ∀ j, j + 1 < cfg.N → (u.head + 1 + j) % cfg.N ≠ u.head % cfg.N := by
    intro j hj
    exact window_slot_ne (f := u.head) (by omega) (by omega) (by omega) (by omega) (by omega)
  have hshift : ∀ j, u.head + 1 + j = u.head + (j + 1) := fun j => by omega
  constructor
  · rw [hstep.1]
    exact h.tail
  · rw [hstep.1, hstep.2, ← h.head, hlen]
    show u.head + 1 + _ = _
    omega
  · intro j d hd
    rw [hstep.2] at hd
    have hjr := (List.getElem?_eq_some_iff.mp hd).1
    have hs := hne j (by omega)
    obtain ⟨h1, h2, h3⟩ := h.published (j + 1) d (by rw [hq]; simpa using hd)
    rw [← hshift] at h1 h2
    exact ⟨(Function.update_of_ne hs _ _).trans h1, ⟨h2.len, h2.bytes⟩, h3⟩
  · intro j hj hjN
    rw [hstep.2] at hj
    show Function.update u.seq (u.head % cfg.N) (u.head + cfg.N) ((u.head + 1 + j) % cfg.N) =
      u.head + 1 + j
    by_cases hlast : j + 1 = cfg.N
    · have hpos : u.head + 1 + j = u.head + cfg.N := by omega
      rw [hpos, Nat.add_mod_right, Function.update_self]
    · rw [Function.update_of_ne (hne j (by omega)), hshift]
      exact h.free (j + 1) (by omega) (by omega)

theorem returns (hg : cfg.Admitted) (hf : cfg.Fits) (hN : 2 ≤ cfg.N)
    (hS : cfg.slotSize.toNat < 2 ^ 32) (h : SeqInv cfg u q) {m m' : Memory} (hm : MemSim cfg m u)
    {op : SeqOp} {res : SeqRes UInt64} (hr : Returns (segOps cfg) m op res m') :
    ∃ u', MemSim cfg m' u' ∧ SeqInv cfg u' (q.step (cfg.S - 20) op).2 ∧
      res = (q.step (cfg.S - 20) op).1.map UInt64.ofNat := by
  cases hr with
  | @push data r _ hs =>
    have hmax : (segOps cfg).maxLen = cfg.S - 20 := maxLen_toNat hg.min
    by_cases hlen : cfg.S - 20 < data.length
    · -- too big: the call is over before it started
      rw [pushCall, if_pos (hmax ▸ hlen)] at hs
      rcases Relation.ReflTransGen.cases_head hs with heq | ⟨c, ⟨_, _, hc⟩, _⟩
      · cases heq
        refine ⟨u, hm, ?_, ?_⟩
        · rwa [Fifo.step, if_pos hlen]
        · rw [Fifo.step, if_pos hlen]
          rfl
      · cases hc
    · rw [pushCall, if_neg (hmax ▸ hlen)] at hs
      have hlen := Nat.le_of_not_lt hlen
      rcases Nat.lt_or_eq_of_le q.bound with hroom | hfull
      · rcases push_result hg hf (h.tailSlot hg hN) hlen hm hs with ⟨_, rfl, hm'⟩ | ⟨hlt, _, _⟩
        · refine ⟨_, hm', h.push hlen hroom, ?_⟩
          rw [Fifo.step, if_neg (by omega), dif_pos hroom, h.tail]
          rfl
        · have := h.seq_tail hroom
          omega
      · obtain ⟨htail, hseq⟩ := h.seq_tail_full (by omega) hfull
        rcases push_result hg hf (h.tailSlot hg hN) hlen hm hs with ⟨heq, _, _⟩ | ⟨_, rfl, hm'⟩
        · omega
        · have hstep : q.step (cfg.S - 20) (.push data) = (.push (.error .full), q) := by
            rw [Fifo.step, if_neg (by omega), dif_neg (by omega)]
          rw [hstep]
          exact ⟨u, hm', h, rfl⟩
  | @pop out r o _ hs =>
    cases hq : q.waiting with
    | nil =>
      have hseq := h.free 0 (by simp [hq]) (by omega)
      rw [Nat.add_zero] at hseq
      have hstep : q.step (cfg.S - 20) (.pop out) = (.pop none out, q) := by
        unfold Fifo.step
        dsimp only
        split <;> simp_all
      rcases pop_result hg hf (h.headSlot (by omega)) hm hs with ⟨heq, _⟩ | ⟨_, rfl, rfl, hm'⟩
      · omega
      · rw [hstep]
        exact ⟨u, hm', h, rfl⟩
    | cons data rest =>
      obtain ⟨hseq, hh, hlen⟩ := h.published 0 data (by simp [hq])
      rw [Nat.add_zero] at hseq hh
      have hhead : q.pushed - q.waiting.length = u.head := by
        have := h.head
        omega
      have hstep : (q.step (cfg.S - 20) (.pop out)).1 = .pop (some u.head) data := by
        unfold Fifo.step
        dsimp only
        split
        · simp_all
        · simp_all
      have hS : cfg.S < 2 ^ 32 := hS
      have hbytes : headBytes cfg u = data := hh.read.trans (truncated_of_lt (by omega))
      rcases pop_result hg hf (h.headSlot (by omega)) hm hs with ⟨_, rfl, rfl, hm'⟩ | ⟨hne, _⟩
      · refine ⟨_, hm', h.pop hq, ?_⟩
        rw [hstep, hbytes]
        rfl
      · exact absurd hseq hne

theorem call_returns (hg : cfg.Admitted) (hf : cfg.Fits) (hN : 2 ≤ cfg.N) (h : SeqInv cfg u q)
    {m : Memory} (hm : MemSim cfg m u) (op : SeqOp) :
    ∃ res m', Returns (segOps cfg) m op res m' := by
  cases op with
  | push data =>
    have hmax : (segOps cfg).maxLen = cfg.S - 20 := maxLen_toNat hg.min
    by_cases hlen : cfg.S - 20 < data.length
    · refine ⟨.push (.error .tooBig), m, .push ?_⟩
      rw [pushCall, if_pos (hmax ▸ hlen)]
      exact .refl
    · obtain ⟨r, m', hs⟩ := push_returns hg hf (h.tailSlot hg hN) (Nat.le_of_not_lt hlen) hm
      refine ⟨.push r, m', .push ?_⟩
      rwa [pushCall, if_neg (hmax ▸ hlen)]
  | pop out =>
    obtain ⟨r, o, m', hs⟩ := pop_returns hg hf (h.headSlot (by omega)) hm out
    exact ⟨.pop r o, m', .pop hs⟩

theorem run (hg : cfg.Admitted) (hf : cfg.Fits) (hN : 2 ≤ cfg.N)
    (hS : cfg.slotSize.toNat < 2 ^ 32) {m m' : Memory} {hist : List (SeqOp × SeqRes UInt64)}
    (h : SeqInv cfg u q) (hm : MemSim cfg m u) (hrun : SeqRun (segOps cfg) m hist m') :
    (∃ u', MemSim cfg m' u' ∧ SeqInv cfg u' (q.after (cfg.S - 20) (hist.map Prod.fst))) ∧
      hist.map Prod.snd =
        (q.results (cfg.S - 20) (hist.map Prod.fst)).map (SeqRes.map UInt64.ofNat) := by
  induction hrun with
  | nil => exact ⟨⟨u, hm, h⟩, rfl⟩
  | snoc _ hr ih =>
    obtain ⟨⟨u', hm', hinv⟩, hres⟩ := ih
    obtain ⟨u'', hm'', hinv', hout⟩ := hinv.returns hg hf hN hS hm' hr
    refine ⟨⟨u'', hm'', ?_⟩, ?_⟩
    · simpa [Fifo.after_append] using hinv'
    · simp [Fifo.results_append, hres, hout]

end SeqInv

variable {cfg : RingConfig}

/-- On two slots or more the ring is the bounded queue. -/
theorem seqFifo_of_two (hN : 2 ≤ cfg.N) (hS : cfg.slotSize.toNat < 2 ^ 32) : SeqFifo cfg := by
  intro m m0 hm hi hist m' hrun
  have hg := check_iff.mp (init_eq_some hi).1
  obtain ⟨hf, len, payload, hsim⟩ := memSim_init hg hm hi
  have hstart := SeqInv.start cfg len payload
  obtain ⟨⟨u, hu, hinv⟩, hres⟩ := hstart.run hg hf hN hS hsim hrun
  exact ⟨hres, hinv.call_returns hg hf hN hu⟩

theorem init_isSome (hg : cfg.Admitted) (hf : cfg.Fits) {m : Memory}
    (hm : m.size = cfg.total.toNat) : ∃ m0, init cfg m = some m0 := by
  have hsize : m.size = 192 + cfg.S * cfg.N := by rw [hm, total_toNat hf]
  have hstore : ∀ {m : Memory} {a : Nat} {v : UInt64}, a + 8 ≤ m.size →
      ∃ m', m.store64 a v = some m' ∧ m'.size = m.size := by
    intro m a v ha
    obtain ⟨m', hm'⟩ := Option.isSome_iff_exists.mp (Memory.store64_isSome ha)
    exact ⟨m', hm', Memory.store64_size hm'⟩
  obtain ⟨m1, h1, hs1⟩ := hstore (v := 0) (show 0 + 8 ≤ m.size by omega)
  obtain ⟨m2, h2, hs2⟩ := hstore (v := 0) (show 64 + 8 ≤ m1.size by omega)
  obtain ⟨m3, h3, hs3⟩ := hstore (v := STATE_RUNNING) (show 128 + 8 ≤ m2.size by omega)
  have hall : (m3.storeAll (fun i => (cfg.slotPtr (UInt64.ofNat i)).toNat) UInt64.ofNat
      (List.range cfg.N)).isSome := by
    refine Memory.storeAll_isSome fun i hi => ?_
    have hiN := List.mem_range.mp hi
    have hle := (slotOff_lt_total hf hiN).1
    have hmin : 20 < cfg.S := hg.min
    have hbound : cfg.slotOff i + 8 ≤ m3.size := by omega
    rwa [slotPtr_ofNat hg hf, Nat.mod_eq_of_lt hiN]
  obtain ⟨m0, h0⟩ := Option.isSome_iff_exists.mp hall
  refine ⟨m0, ?_⟩
  simp only [init, check_iff.mpr hg, h1, h2, h3, Option.bind_some]
  exact h0

/-- On one slot the second push goes into the slot of the first, still unread. -/
theorem push_twice_of_one (hg : cfg.Admitted) (hf : cfg.Fits) (hN : cfg.N = 1) {m m0 : Memory}
    (hm : m.size = cfg.total.toNat) (hi : init cfg m = some m0) {d d' : List UInt8}
    (hd : d.length ≤ cfg.S - 20) (hd' : d'.length ≤ cfg.S - 20) :
    ∃ m', SeqRun (segOps cfg) m0 [(.push d, .push (.ok 0)), (.push d', .push (.ok 1))] m' := by
  obtain ⟨_, len, payload, hsim⟩ := memSim_init hg hm hi
  have hmax : (segOps cfg).maxLen = cfg.S - 20 := maxLen_toNat hg.min
  have hcall : ∀ {d : List UInt8} {u : UMem} {m : Memory}, d.length ≤ cfg.S - 20 → MemSim cfg m u →
      u.seq (u.tail % cfg.N) = u.tail → ∃ m', MemSim cfg m' (u.pushed cfg.N d) ∧
        Returns (segOps cfg) m (.push d) (.push (.ok (UInt64.ofNat u.tail))) m' := by
    intro d u m hd hm hseq
    have ht : TailSlot cfg u := ⟨by omega, by omega⟩
    obtain ⟨r, m', hs⟩ := push_returns hg hf ht hd hm
    rcases push_result hg hf ht hd hm hs with ⟨_, rfl, hm'⟩ | ⟨hlt, _⟩
    · refine ⟨m', hm', .push ?_⟩
      rwa [pushCall, if_neg (by omega)]
    · omega
  obtain ⟨m1, hm1, h1⟩ := hcall hd hsim (by simp [UMem.start, hN])
  obtain ⟨m2, hm2, h2⟩ := hcall hd' hm1 (by simp [UMem.start, UMem.pushed, hN])
  exact ⟨m2, (SeqRun.nil.snoc h1).snoc h2⟩

theorem not_seqFifo_of_one (hg : cfg.Admitted) (hS : cfg.slotSize.toNat < 2 ^ 32)
    (hf : cfg.Fits) (hN : cfg.N = 1) : ¬ SeqFifo cfg := by
  intro h
  have hsize : cfg.total.toNat = 192 + cfg.S := by rw [total_toNat hf, ← Nat.mul_one cfg.S, ← hN]
  have hS : cfg.S < 2 ^ 32 := hS
  obtain ⟨m, hm⟩ : ∃ m : Memory, m.size = cfg.total.toNat :=
    ⟨{ size := cfg.total.toNat, byte := fun _ => 0, size_lt := by omega }, rfl⟩
  obtain ⟨m0, hi⟩ := init_isSome hg hf hm
  have hnil : ([] : List UInt8).length ≤ cfg.S - 20 := Nat.zero_le _
  obtain ⟨m', hrun⟩ := push_twice_of_one hg hf hN hm hi hnil hnil
  have hres := (h m m0 hm hi _ m' hrun).1
  simp [Fifo.results, Fifo.step, Fifo.empty, hN, SeqRes.map, Except.map] at hres

/-- Calls one after the other behave as a bounded FIFO queue exactly on two slots or more. -/
theorem sequential_fifo_iff (hc : cfg.check = .ok ()) (hS : cfg.slotSize.toNat < 2 ^ 32)
    (hf : cfg.Fits) : SeqFifo cfg ↔ 2 ≤ cfg.N := by
  have hg := check_iff.mp hc
  constructor
  · intro h
    have hpos : 0 < cfg.N := hg.pos
    by_contra hlt
    exact not_seqFifo_of_one hg hS hf (by omega) h
  · exact fun hN => seqFifo_of_two hN hS

/-- One slot of 24 bytes. -/
def oneSlot : RingConfig := { numSlots := 1, slotSize := 24 }

theorem sequential_fifo_iff_medium : SeqFifo Presets.MEDIUM ↔ 2 ≤ Presets.MEDIUM.N :=
  sequential_fifo_iff (by decide) (by decide) (by unfold Fits; decide)

/-- `check` lets one slot through, and a queue of one message it is not. -/
theorem one_slot_overwrites : oneSlot.check = .ok () ∧ oneSlot.Fits ∧ ¬ SeqFifo oneSlot ∧
    ∀ m m0, m.size = oneSlot.total.toNat → init oneSlot m = some m0 →
      ∃ m', SeqRun (segOps oneSlot) m0
        [(.push [1], .push (.ok 0)), (.push [2], .push (.ok 1))] m' := by
  have hc : oneSlot.check = .ok () := by decide
  have hg := check_iff.mp hc
  have hf : oneSlot.Fits := by unfold Fits; decide
  refine ⟨hc, hf, not_seqFifo_of_one hg (by decide) hf (by decide), fun m m0 hm hi => ?_⟩
  exact push_twice_of_one hg hf (by decide) hm hi (by decide) (by decide)

end ShmMpsc
