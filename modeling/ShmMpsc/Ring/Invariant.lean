import ShmMpsc.Ring.Unbounded

/-!
# Every step of the unbounded ring keeps its invariant

The slots of the window `[freed, freed + N)` are pairwise different, so a step on one
position leaves what is known about the others. A step that only moves a program counter
is `quiet_push` or `quiet_pop`; the accesses that change memory have a lemma each.
-/

namespace ShmMpsc

set_option autoImplicit false

variable {ι : Type} {N L : Nat}

/-- Different positions of one window are in different slots. -/
theorem window_slot_ne {f p q : Nat} (hp : f ≤ p) (hp' : p < f + N) (hq : f ≤ q)
    (hq' : q < f + N) (hne : p ≠ q) : p % N ≠ q % N := by
  intro h
  rcases Nat.lt_or_gt_of_ne hne with hlt | hlt
  · have hd := Nat.sub_mod_eq_zero_of_mod_eq h.symm
    have := Nat.eq_zero_of_dvd_of_lt (Nat.dvd_of_mod_eq_zero hd) (by omega)
    omega
  · have hd := Nat.sub_mod_eq_zero_of_mod_eq h
    have := Nat.eq_zero_of_dvd_of_lt (Nat.dvd_of_mod_eq_zero hd) (by omega)
    omega

theorem reserves_getElem_append {W : Type} {log ev : List (RingEvent ι W)} {k : Nat}
    {r : ι × List UInt8 × W} (h : (reserves log)[k]? = some r) :
    (reserves (log ++ ev))[k]? = some r := by
  obtain ⟨hk, _⟩ := List.getElem?_eq_some_iff.mp h
  rw [reserves_append, List.getElem?_append_left hk, h]

theorem Reserved.append {log ev : List (RingEvent ι Nat)} {pos : Nat} {out : List UInt8}
    (h : Reserved log pos out) : Reserved (log ++ ev) pos out := by
  obtain ⟨i, data, hr, hout⟩ := h
  exact ⟨i, data, reserves_getElem_append hr, hout⟩

/-- What the consumer knows survives a producer's step that leaves a published head alone. -/
theorem PopOk.frame {m m' : UMem} {log ev : List (RingEvent ι Nat)}
    {pc : PopPc Nat} (h : PopOk N m log pc) (hh : m'.head = m.head)
    (hs : (∀ out head, pc ≠ .storeHead out head) → m.seq (m.head % N) = m.head + 1 →
      m'.seq (m.head % N) = m.seq (m.head % N) ∧ m'.len (m.head % N) = m.len (m.head % N)) :
    PopOk N m' (log ++ ev) pc := by
  cases pc with
  | idle => trivial
  | loadHead => trivial
  | done => trivial
  | loadSeq out head => exact h.trans hh.symm
  | readLen out head =>
    obtain ⟨rfl, hseq⟩ := h
    have hs := hs (by simp) hseq
    exact ⟨hh.symm, hs.1.trans hseq⟩
  | readPayload out head len =>
    obtain ⟨rfl, hseq, hlen⟩ := h
    have hs := hs (by simp) hseq
    exact ⟨hh.symm, hs.1.trans hseq, by rw [hs.2, hlen]⟩
  | release out head =>
    obtain ⟨rfl, hseq, hr⟩ := h
    have hs := hs (by simp) hseq
    exact ⟨hh.symm, hs.1.trans hseq, hr.append⟩
  | storeHead out head =>
    obtain ⟨rfl, hr⟩ := h
    exact ⟨hh.symm, hr.append⟩

theorem PopOk.frame_mem {m m' : UMem} {log : List (RingEvent ι Nat)}
    {pc : PopPc Nat} (h : PopOk N m log pc) (hh : m'.head = m.head)
    (hs : (∀ out head, pc ≠ .storeHead out head) → m.seq (m.head % N) = m.head + 1 →
      m'.seq (m.head % N) = m.seq (m.head % N) ∧ m'.len (m.head % N) = m.len (m.head % N)) :
    PopOk N m' log pc := by
  have h' : PopOk N m' (log ++ []) pc := h.frame hh hs
  rwa [List.append_nil] at h'

variable [DecidableEq ι] {s : RingState ι Nat UMem} {log ev : List (RingEvent ι Nat)}

/-- What producer `i` knows survives a step of another party that leaves its slot alone. -/
theorem PushOk.frame {f f' : Nat} {m m' : UMem} {i : ι} {pc : PushPc Nat}
    (h : PushOk N f m log i pc) (hf : f ≤ f')
    (hw : ∀ data p, pc.writing = some (data, p) → f' ≤ p ∧ m'.seq (p % N) = m.seq (p % N) ∧
      m'.len (p % N) = m.len (p % N) ∧ m'.payload (p % N) = m.payload (p % N))
    (ht : m'.tail + reservedSince i log = m.tail + reservedSince i (log ++ ev)) :
    PushOk N f' m' (log ++ ev) i pc := by
  cases pc with
  | idle => trivial
  | loadTail => trivial
  | done => trivial
  | loadSeq data pos =>
    have h : pos + reservedSince i log = m.tail := h
    show pos + reservedSince i (log ++ ev) = m'.tail
    omega
  | cas data pos =>
    obtain ⟨h, hpos⟩ := h
    exact ⟨by omega, by omega⟩
  | writeLen data pos =>
    obtain ⟨_, hr, hseq⟩ := h
    obtain ⟨hle, hs, _, _⟩ := hw data pos rfl
    exact ⟨hle, reserves_getElem_append hr, hs.trans hseq⟩
  | writePayload data pos =>
    obtain ⟨_, hr, hseq, hlen⟩ := h
    obtain ⟨hle, hs, hl, _⟩ := hw data pos rfl
    exact ⟨hle, reserves_getElem_append hr, hs.trans hseq, by rw [hl, hlen]⟩
  | publish data pos =>
    obtain ⟨_, hr, hseq, hlen, hbytes⟩ := h
    obtain ⟨hle, hs, hl, hp⟩ := hw data pos rfl
    exact ⟨hle, reserves_getElem_append hr, hs.trans hseq, by rw [hl, hlen], by rw [hp, hbytes]⟩

theorem PushOk.frame_mem {f f' : Nat} {m m' : UMem} {i : ι} {pc : PushPc Nat}
    (h : PushOk N f m log i pc) (hf : f ≤ f')
    (hw : ∀ data p, pc.writing = some (data, p) → f' ≤ p ∧ m'.seq (p % N) = m.seq (p % N) ∧
      m'.len (p % N) = m.len (p % N) ∧ m'.payload (p % N) = m.payload (p % N))
    (ht : m'.tail = m.tail) : PushOk N f' m' log i pc := by
  have hsince : m'.tail + reservedSince i log = m.tail + reservedSince i (log ++ []) := by
    rw [ht, List.append_nil]
  simpa using h.frame hf hw hsince

/-- A writer's position is reserved by it, in the window, and its slot still shows the position. -/
theorem PushOk.of_writing {f : Nat} {m : UMem} {i : ι} {pc : PushPc Nat} {data : List UInt8}
    {p : Nat} (h : PushOk N f m log i pc) (hw : pc.writing = some (data, p)) :
    f ≤ p ∧ (reserves log)[p]? = some (i, data, p) ∧ m.seq (p % N) = p := by
  cases pc with
  | writeLen d q => cases hw; exact h
  | writePayload d q => cases hw; exact ⟨h.1, h.2.1, h.2.2.1⟩
  | publish d q => cases hw; exact ⟨h.1, h.2.1, h.2.2.1⟩
  | _ => cases hw

namespace RingInv

theorem reserved_lt (h : RingInv N L s log) {p : Nat} {r : ι × List UInt8 × Nat}
    (hr : (reserves log)[p]? = some r) : p < s.mem.tail := by
  obtain ⟨hk, _⟩ := List.getElem?_eq_some_iff.mp hr
  exact h.tail_eq ▸ hk

theorem of_writing (h : RingInv N L s log) {i : ι} {data : List UInt8} {p : Nat}
    (hw : (s.push i).writing = some (data, p)) :
    freed s ≤ p ∧ p < s.mem.tail ∧ (reserves log)[p]? = some (i, data, p) ∧
      s.mem.seq (p % N) = p := by
  obtain ⟨hf, hr, hs⟩ := (h.push_ok i).of_writing hw
  exact ⟨hf, h.reserved_lt hr, hr, hs⟩

theorem popped_at_append (h : RingInv N L s log) (hev : pops ev = []) (k pos : Nat)
    (out : List UInt8) (hk : (pops (log ++ ev))[k]? = some (pos, out)) :
    pos = k ∧ Reserved (log ++ ev) k out := by
  rw [pops_append, hev, List.append_nil] at hk
  obtain ⟨hpos, hres⟩ := h.popped_at k pos out hk
  exact ⟨hpos, hres.append⟩

theorem writer_unique (h : RingInv N L s log) {i j : ι} {data data' : List UInt8} {p : Nat}
    (hi : (s.push i).writing = some (data, p)) (hj : (s.push j).writing = some (data', p)) :
    i = j ∧ data = data' := by
  have h1 := (h.of_writing hi).2.2.1
  have h2 := (h.of_writing hj).2.2.1
  rw [h1] at h2
  cases h2
  exact ⟨rfl, rfl⟩

theorem writer_slot_ne (h : RingInv N L s log) {i j : ι} {data data' : List UInt8} {p q : Nat}
    (hi : (s.push i).writing = some (data, p)) (hj : (s.push j).writing = some (data', q))
    (hij : i ≠ j) : p % N ≠ q % N := by
  obtain ⟨hp, hp', _, _⟩ := h.of_writing hi
  obtain ⟨hq, hq', _, _⟩ := h.of_writing hj
  have ht := h.tail_le
  refine window_slot_ne hp (by omega) hq (by omega) ?_
  rintro rfl
  exact hij (h.writer_unique hi hj).1

theorem writer_slot_ne_head (h : RingInv N L s log) {i : ι} {data : List UInt8} {p : Nat}
    (hi : (s.push i).writing = some (data, p)) (hf : freed s = s.mem.head)
    (hseq : s.mem.seq (s.mem.head % N) = s.mem.head + 1) : p % N ≠ s.mem.head % N := by
  obtain ⟨hp, hp', _, hs⟩ := h.of_writing hi
  have ht := h.tail_le
  refine window_slot_ne hp (by omega) (by omega) (by omega) ?_
  rintro rfl
  omega

theorem small_update (h : RingInv N L s log) (i : ι) {pc : PushPc Nat}
    (hpc : ∀ data : List UInt8, pc.data = some data → data.length ≤ L) (j : ι)
    (data : List UInt8) (hd : (Function.update s.push i pc j).data = some data) :
    data.length ≤ L := by
  by_cases hj : j = i
  · subst hj
    rw [Function.update_self] at hd
    exact hpc data hd
  · rw [Function.update_of_ne hj] at hd
    exact h.small j data hd

/-- A producer's step that leaves memory and the sets of the log alone. -/
theorem quiet_push (h : RingInv N L s log) (hev : Quiet ev) {i : ι} {pc : PushPc Nat}
    (hold : (s.push i).writing = none)
    (hok : PushOk N (freed s) s.mem (log ++ ev) i pc)
    (hsmall : ∀ data : List UInt8, pc.data = some data → data.length ≤ L)
    (hsince : ∀ j, j ≠ i → reservedSince j (log ++ ev) = reservedSince j log) :
    RingInv N L { s with push := Function.update s.push i pc } (log ++ ev) where
  tail_eq := by simpa [hev.reserves] using h.tail_eq
  reserved_at := by simpa [hev.reserves] using h.reserved_at
  freed_le := h.freed_le
  tail_le := h.tail_le
  push_ok := by
    intro j
    show PushOk N (freed s) s.mem (log ++ ev) j (Function.update s.push i pc j)
    by_cases hj : j = i
    · subst hj
      rwa [Function.update_self]
    · rw [Function.update_of_ne hj]
      refine (h.push_ok j).frame (Nat.le_refl _) ?_ ?_
      · intro data p hw
        exact ⟨(h.of_writing hw).1, rfl, rfl, rfl⟩
      · rw [hsince j hj]
  small := h.small_update i hsmall
  pop_ok := h.pop_ok.frame rfl fun _ _ => ⟨rfl, rfl⟩
  slot := by
    intro p hp hp'
    rcases h.slot p hp hp' with ⟨hs, hw⟩ | ⟨hs, hr⟩
    · refine .inl ⟨hs, fun ht => ?_⟩
      obtain ⟨j, data, hj⟩ := hw ht
      have hji : j ≠ i := by rintro rfl; rw [hold] at hj; cases hj
      exact ⟨j, data, by simpa only [Function.update_of_ne hji] using hj⟩
    · exact .inr ⟨hs, by simpa [hev.reserves] using hr⟩
  published := by
    intro p
    rw [published_append, or_iff_left (hev.published p)]
    exact h.published p
  released := by
    rw [releases_append, hev.releases, List.append_nil]
    exact h.released
  popped := by simpa [hev.pops] using h.popped
  popped_at := h.popped_at_append hev.pops

/-- A consumer's step that leaves memory, `freed` and the sets of the log alone. -/
theorem quiet_pop (h : RingInv N L s log) (hev : Quiet ev) {pc : PopPc Nat}
    (hf : freed { s with pop := pc } = freed s) (hok : PopOk N s.mem (log ++ ev) pc)
    (hsince : ∀ j, reservedSince j (log ++ ev) = reservedSince j log) :
    RingInv N L { s with pop := pc } (log ++ ev) where
  tail_eq := by simpa [hev.reserves] using h.tail_eq
  reserved_at := by simpa [hev.reserves] using h.reserved_at
  freed_le := hf ▸ h.freed_le
  tail_le := hf ▸ h.tail_le
  push_ok := by
    intro j
    rw [hf]
    exact (h.push_ok j).frame (Nat.le_refl _)
      (fun _ _ hw => ⟨(h.of_writing hw).1, rfl, rfl, rfl⟩) (by rw [hsince j])
  small := h.small
  pop_ok := hok
  slot := by
    intro p hp hp'
    rw [hf] at hp hp'
    simpa [hev.reserves] using h.slot p hp hp'
  published := by simpa [hev.published, hf] using h.published
  released := by simpa [hev.releases, hf] using h.released
  popped := by simpa [hev.pops] using h.popped
  popped_at := h.popped_at_append hev.pops

/-- While there is room the slot of the tail is free. -/
theorem seq_tail (h : RingInv N L s log) (hroom : s.mem.tail < freed s + N) :
    s.mem.seq (s.mem.tail % N) = s.mem.tail := by
  rcases h.slot _ h.freed_le hroom with ⟨hs, _⟩ | ⟨_, _, _, hr, _⟩
  · exact hs
  · exact absurd (h.reserved_lt hr) (Nat.lt_irrefl _)

/-- A successful CAS: position `tail` passes to producer `i`. -/
theorem reserve (h : RingInv N L s log) {i : ι} {data : List UInt8}
    (hpc : s.push i = .cas data s.mem.tail) :
    RingInv N L { s with
      mem := { s.mem with tail := s.mem.tail + 1 },
      push := Function.update s.push i (.writeLen data s.mem.tail) }
      (log ++ [.push i (.reserve data s.mem.tail)]) := by
  have hlt : s.mem.tail < freed s + N := by
    have hok := h.push_ok i
    rw [hpc] at hok
    exact hok.2
  have hres : reserves (log ++ [.push i (.reserve data s.mem.tail)]) =
      reserves log ++ [(i, data, s.mem.tail)] := by simp [reserves]
  have hnew : (reserves log ++ [(i, data, s.mem.tail)])[s.mem.tail]? =
      some (i, data, s.mem.tail) := by simp [← h.tail_eq]
  have hseq := h.seq_tail hlt
  have hsmall : data.length ≤ L := h.small i data (by simp [hpc, PushPc.data])
  constructor
  · simp [hres, h.tail_eq]
  · intro k j d pos hk
    rw [hres, List.getElem?_append] at hk
    split at hk
    · exact h.reserved_at k j d pos hk
    · rename_i hge
      have hk0 : k - (reserves log).length = 0 := by
        have := (List.getElem?_eq_some_iff.mp hk).1
        simpa using this
      simp only [hk0, List.getElem?_cons_zero, Option.some.injEq, Prod.mk.injEq] at hk
      obtain ⟨_, rfl, rfl⟩ := hk
      exact ⟨by rw [← h.tail_eq]; omega, hsmall⟩
  · exact Nat.le_succ_of_le h.freed_le
  · exact hlt
  · intro j
    show PushOk N (freed s) _ _ j (Function.update s.push i (.writeLen data s.mem.tail) j)
    by_cases hj : j = i
    · subst hj
      rw [Function.update_self]
      exact ⟨h.freed_le, hres ▸ hnew, hseq⟩
    · simp only [Function.update_of_ne hj]
      refine (h.push_ok j).frame (Nat.le_refl _) ?_ ?_
      · intro data p hw
        exact ⟨(h.of_writing hw).1, rfl, rfl, rfl⟩
      · rw [reservedSince_reserve]
        show s.mem.tail + 1 + _ = _
        omega
  · exact h.small_update i fun d hd => Option.some.inj hd ▸ hsmall
  · exact h.pop_ok.frame rfl fun _ _ => ⟨rfl, rfl⟩
  · intro p hp hp'
    rcases h.slot p hp hp' with ⟨hs, hw⟩ | ⟨hs, j, d, hr, hh⟩
    · refine .inl ⟨hs, fun ht => ?_⟩
      by_cases hpt : p = s.mem.tail
      · exact ⟨i, data, by simp [hpt, PushPc.writing]⟩
      · have ht' : p < s.mem.tail + 1 := ht
        obtain ⟨j, d, hj⟩ := hw (by omega)
        have hji : j ≠ i := by rintro rfl; simp [hpc, PushPc.writing] at hj
        exact ⟨j, d, by simpa only [Function.update_of_ne hji] using hj⟩
    · exact .inr ⟨hs, j, d, reserves_getElem_append hr, hh.1, hh.2⟩
  · intro p
    have hp : ¬ Published [RingEvent.push i (.reserve data s.mem.tail)] p := by simp [Published]
    rw [published_append, or_iff_left hp]
    exact h.published p
  · have hev : releases (log ++ [RingEvent.push i (PushEvent.reserve data s.mem.tail)]) =
        releases log := by simp [releases]
    rw [hev]
    exact h.released
  · simpa [pops] using h.popped
  · exact h.popped_at_append (by simp [pops])

/-- A writer changes the length or the payload of its own slot. -/
theorem write_slot (h : RingInv N L s log) {i : ι} {data : List UInt8} {p : Nat}
    {pc : PushPc Nat} {m : UMem} (hold : (s.push i).writing = some (data, p))
    (hnew : pc.writing = some (data, p)) (htail : m.tail = s.mem.tail)
    (hhead : m.head = s.mem.head) (hseq : m.seq = s.mem.seq)
    (hslot : ∀ k, k ≠ p % N → m.len k = s.mem.len k ∧ m.payload k = s.mem.payload k)
    (hok : PushOk N (freed s) m log i pc) :
    RingInv N L { s with mem := m, push := Function.update s.push i pc } log := by
  have hf : freed { s with mem := m, push := Function.update s.push i pc } = freed s := by
    simp only [freed, hhead]
  have hdata : pc.data = some data := by cases pc <;> cases hnew <;> rfl
  have hdata' : (s.push i).data = some data := by
    generalize s.push i = pc' at hold
    cases pc' <;> cases hold <;> rfl
  obtain ⟨hfp, hpt, hrp, hsp⟩ := h.of_writing hold
  have ht := h.tail_le
  constructor
  · exact h.tail_eq.trans htail.symm
  · exact h.reserved_at
  · rw [hf, htail]; exact h.freed_le
  · rw [hf, htail]; exact h.tail_le
  · intro j
    rw [hf]
    by_cases hj : j = i
    · subst hj; simpa using hok
    · simp only [Function.update_of_ne hj]
      refine (h.push_ok j).frame_mem (Nat.le_refl _) ?_ htail
      intro d q hw
      have hne := h.writer_slot_ne hw hold hj
      exact ⟨(h.of_writing hw).1, by rw [hseq], (hslot _ hne).1, (hslot _ hne).2⟩
  · refine h.small_update i fun d hd => ?_
    exact h.small i d (hdata'.trans (hdata.symm.trans hd))
  · refine h.pop_ok.frame_mem hhead fun hp hs => ?_
    have hne := (h.writer_slot_ne_head hold (freed_eq_head hp) hs).symm
    exact ⟨by rw [hseq], (hslot _ hne).1⟩
  · intro q hq hq'
    rw [hf] at hq hq'
    rcases h.slot q hq hq' with ⟨hs, hw⟩ | ⟨hs, j, d, hr, hl, hb⟩
    · refine .inl ⟨by rw [hseq]; exact hs, fun hqt => ?_⟩
      obtain ⟨j, d, hj⟩ := hw (htail ▸ hqt)
      by_cases hji : j = i
      · subst hji
        cases Option.some.inj (hold.symm.trans hj)
        exact ⟨j, data, by simpa using hnew⟩
      · exact ⟨j, d, by simpa [hji] using hj⟩
    · have hqp : q ≠ p := by rintro rfl; omega
      have hne := window_slot_ne hq hq' hfp (by omega) hqp
      refine .inr ⟨by rw [hseq]; exact hs, j, d, hr, ?_, ?_⟩
      · rw [(hslot _ hne).1, hl]
      · rw [(hslot _ hne).2, hb]
  · intro q
    rw [hf, hseq]
    exact h.published q
  · rw [hf]; exact h.released
  · rw [hhead]; exact h.popped
  · exact h.popped_at

theorem publish (h : RingInv N L s log) {i : ι} {data : List UInt8} {p : Nat}
    (hpc : s.push i = .publish data p) :
    RingInv N L { s with
      mem := { s.mem with seq := Function.update s.mem.seq (p % N) (p + 1) },
      push := Function.update s.push i (.done (.ok p)) }
      (log ++ [.push i (.publish p)]) := by
  have hold : (s.push i).writing = some (data, p) := by simp [hpc, PushPc.writing]
  have hholds : Holds N s.mem p data := by
    have hok := h.push_ok i
    rw [hpc] at hok
    exact hok.2.2.2
  obtain ⟨hfp, hpt, hrp, hsp⟩ := h.of_writing hold
  have ht := h.tail_le
  have hev : reserves [RingEvent.push i (PushEvent.publish p)] = [] := by simp [reserves]
  constructor
  · simpa [hev] using h.tail_eq
  · simpa [hev] using h.reserved_at
  · exact h.freed_le
  · exact h.tail_le
  · intro j
    by_cases hj : j = i
    · subst hj; simp [PushOk]
    · simp only [Function.update_of_ne hj]
      refine (h.push_ok j).frame (Nat.le_refl _) ?_ ?_
      · intro d q hw
        have hne := h.writer_slot_ne hw hold hj
        exact ⟨(h.of_writing hw).1, Function.update_of_ne hne _ _, rfl, rfl⟩
      · simp [reservedSince]
  · exact h.small_update i fun d hd => by cases hd
  · refine h.pop_ok.frame rfl fun hp hs => ⟨?_, rfl⟩
    exact Function.update_of_ne (h.writer_slot_ne_head hold (freed_eq_head hp) hs).symm _ _
  · intro q hq hq'
    by_cases hqp : q = p
    · subst hqp
      exact .inr ⟨Function.update_self .., i, data, reserves_getElem_append hrp, hholds.1, hholds.2⟩
    · have hne := window_slot_ne hq hq' hfp (by show p < freed s + N; omega) hqp
      rcases h.slot q hq hq' with ⟨hs, hw⟩ | ⟨hs, j, d, hr, hl, hb⟩
      · refine .inl ⟨(Function.update_of_ne hne _ _).trans hs, fun hqt => ?_⟩
        obtain ⟨j, d, hj⟩ := hw hqt
        have hji : j ≠ i := by
          rintro rfl
          rw [hold] at hj
          cases hj
          exact hqp rfl
        exact ⟨j, d, by simpa [hji] using hj⟩
      · exact .inr ⟨(Function.update_of_ne hne _ _).trans hs, j, d, reserves_getElem_append hr,
          hl, hb⟩
  · intro q
    rw [published_append, published_single, h.published q]
    show _ ↔ q < freed s ∨
      (q < freed s + N ∧ Function.update s.mem.seq (p % N) (p + 1) (q % N) = q + 1)
    by_cases hqp : q = p
    · subst hqp
      rw [Function.update_self]
      exact ⟨fun _ => .inr ⟨by omega, rfl⟩, fun _ => .inr rfl⟩
    · rw [or_iff_left hqp]
      by_cases hq : freed s ≤ q ∧ q < freed s + N
      · have hne := window_slot_ne hq.1 hq.2 hfp (by omega) hqp
        rw [Function.update_of_ne hne]
      · constructor
        · rintro (h1 | h1)
          · exact .inl h1
          · exact .inl (by omega)
        · rintro (h1 | h1)
          · exact .inl h1
          · exact .inl (by omega)
  · have hev : releases (log ++ [RingEvent.push i (PushEvent.publish p)]) =
        releases log := by simp [releases]
    rw [hev]
    exact h.released
  · simpa [pops] using h.popped
  · exact h.popped_at_append (by simp [pops])

/-- The slot-releasing store: the window moves up by one position. -/
theorem release (h : RingInv N L s log) {out : List UInt8} {head : Nat}
    (hpc : s.pop = .release out head) :
    RingInv N L { s with
      mem := { s.mem with seq := Function.update s.mem.seq (head % N) (head + N) },
      pop := .storeHead out head }
      (log ++ [.pop (.release head)]) := by
  have hf : freed s = s.mem.head := freed_eq_head (by simp [hpc])
  have hok := h.pop_ok
  rw [hpc] at hok
  obtain ⟨rfl, hseq, hres⟩ := hok
  have ⟨i, data, hr, _⟩ := hres
  have hlt := h.reserved_lt hr
  have ht := h.tail_le
  have hev : reserves (log ++ [RingEvent.pop (PopEvent.release s.mem.head)]) = reserves log := by
    simp [reserves]
  -- a position of the old window other than head keeps its slot
  have hkeep : ∀ q, freed s ≤ q → q < freed s + N → q ≠ s.mem.head →
      q % N ≠ s.mem.head % N := fun q hq hq' hne =>
    window_slot_ne hq hq' (by omega) (by omega) hne
  constructor
  · rw [hev]; exact h.tail_eq
  · rw [hev]; exact h.reserved_at
  · exact hlt
  · show s.mem.tail ≤ s.mem.head + 1 + N
    omega
  · intro j
    have hf1 : freed s ≤ s.mem.head + 1 := by omega
    refine (h.push_ok j).frame hf1 ?_ ?_
    · intro d q hw
      show s.mem.head + 1 ≤ q ∧ _
      obtain ⟨hq, hqt, _, hs⟩ := h.of_writing hw
      have hne : q ≠ s.mem.head := by rintro rfl; omega
      refine ⟨by omega, ?_, rfl, rfl⟩
      exact Function.update_of_ne (hkeep q hq (by omega) hne) _ _
    · simp [reservedSince]
  · exact h.small
  · exact ⟨rfl, hres.append⟩
  · intro q hq hq'
    have hq : s.mem.head + 1 ≤ q := hq
    have hq' : q < s.mem.head + 1 + N := hq'
    by_cases hqN : q = s.mem.head + N
    · subst hqN
      refine .inl ⟨?_, fun hqt => absurd hqt ?_⟩
      · simp
      · show ¬ s.mem.head + N < s.mem.tail
        omega
    · have hne := hkeep q (by omega) (by omega) (by omega)
      rcases h.slot q (by omega) (by omega) with ⟨hs, hw⟩ | ⟨hs, j, d, hrq, hl, hb⟩
      · exact .inl ⟨(Function.update_of_ne hne _ _).trans hs, hw⟩
      · exact .inr ⟨(Function.update_of_ne hne _ _).trans hs, j, d, by rw [hev]; exact hrq, hl, hb⟩
  · intro q
    have hp : ¬ Published [(.pop (.release s.mem.head) : RingEvent ι Nat)] q := by
      simp [Published]
    rw [published_append, or_iff_left hp, h.published q]
    show _ ↔ q < s.mem.head + 1 ∨ (q < s.mem.head + 1 + N ∧
      Function.update s.mem.seq (s.mem.head % N) (s.mem.head + N) (q % N) = q + 1)
    by_cases hq1 : q < s.mem.head
    · exact ⟨fun _ => .inl (by omega), fun _ => .inl (by omega)⟩
    by_cases hq2 : q = s.mem.head
    · subst hq2
      exact ⟨fun _ => .inl (by omega), fun _ => .inr ⟨by omega, hseq⟩⟩
    by_cases hq3 : q < s.mem.head + N
    · rw [Function.update_of_ne (hkeep q (by omega) (by omega) hq2), hf]
      constructor
      · rintro (h1 | ⟨_, h1⟩)
        · omega
        · exact .inr ⟨by omega, h1⟩
      · rintro (h1 | ⟨_, h1⟩)
        · omega
        · exact .inr ⟨hq3, h1⟩
    · constructor
      · rintro (h1 | ⟨h1, _⟩) <;> omega
      · rintro (h1 | ⟨h1, h2⟩)
        · omega
        · obtain rfl : q = s.mem.head + N := by omega
          simp at h2
  · have hrel : releases (log ++ [RingEvent.pop (PopEvent.release s.mem.head)]) =
        releases log ++ [s.mem.head] := by simp [releases]
    rw [hrel, List.length_append, h.released, hf]
    rfl
  · simpa [pops] using h.popped
  · exact h.popped_at_append (by simp [pops])

theorem storeHead (h : RingInv N L s log) {out : List UInt8} {head : Nat}
    (hpc : s.pop = .storeHead out head) :
    RingInv N L { s with
      mem := { s.mem with head := head + 1 }, pop := .done (some head) out }
      (log ++ [.pop (.some head out)]) := by
  have hf : freed s = s.mem.head + 1 := freed_storeHead hpc
  have hok := h.pop_ok
  rw [hpc] at hok
  obtain ⟨rfl, hr⟩ := hok
  have hf' : freed { s with
      mem := { s.mem with head := s.mem.head + 1 }, pop := .done (some s.mem.head) out } =
      freed s := hf.symm
  have hev : reserves (log ++ [RingEvent.pop (PopEvent.some s.mem.head out)]) = reserves log := by
    simp [reserves]
  have hpops : pops (log ++ [RingEvent.pop (PopEvent.some s.mem.head out)]) =
      pops log ++ [(s.mem.head, out)] := by simp [pops]
  constructor
  · rw [hev]; exact h.tail_eq
  · rw [hev]; exact h.reserved_at
  · rw [hf']; exact h.freed_le
  · rw [hf']; exact h.tail_le
  · intro j
    rw [hf']
    refine (h.push_ok j).frame (Nat.le_refl _)
      (fun d q hw => ⟨(h.of_writing hw).1, rfl, rfl, rfl⟩) ?_
    simp [reservedSince]
  · exact h.small
  · trivial
  · rw [hf']
    intro q hq hq'
    rcases h.slot q hq hq' with hl | ⟨hs, j, d, hrq, hl, hb⟩
    · exact .inl hl
    · exact .inr ⟨hs, j, d, by rw [hev]; exact hrq, hl, hb⟩
  · intro q
    have hp : ¬ Published [(.pop (.some s.mem.head out) : RingEvent ι Nat)] q := by
      simp [Published]
    rw [published_append, or_iff_left hp, hf']
    exact h.published q
  · rw [hf']
    simpa [releases] using h.released
  · rw [hpops, List.length_append, h.popped]
    rfl
  · intro k pos o hk
    rw [hpops, List.getElem?_append] at hk
    split at hk
    · obtain ⟨hpos, hres⟩ := h.popped_at k pos o hk
      exact ⟨hpos, hres.append⟩
    · rename_i hge
      have hk0 : k - (pops log).length = 0 := by
        have := (List.getElem?_eq_some_iff.mp hk).1
        simpa using this
      simp only [hk0, List.getElem?_cons_zero, Option.some.injEq, Prod.mk.injEq] at hk
      obtain ⟨rfl, rfl⟩ := hk
      have hkh : k = s.mem.head := by rw [← h.popped]; omega
      exact ⟨hkh.symm, by rw [hkh]; exact hr.append⟩

theorem setState (h : RingInv N L s log) (v : UInt64) :
    RingInv N L { s with mem := { s.mem with state := v } } log where
  tail_eq := h.tail_eq
  reserved_at := h.reserved_at
  freed_le := h.freed_le
  tail_le := h.tail_le
  push_ok := fun i => (h.push_ok i).frame_mem (Nat.le_refl _)
    (fun _ _ hw => ⟨(h.of_writing hw).1, rfl, rfl, rfl⟩) rfl
  small := h.small
  pop_ok := h.pop_ok.frame_mem rfl fun _ _ => ⟨rfl, rfl⟩
  slot := fun q hq hq' => by
    rcases h.slot q hq hq' with hl | ⟨hs, j, d, hrq, hl, hb⟩
    · exact .inl hl
    · exact .inr ⟨hs, j, d, hrq, hl, hb⟩
  published := h.published
  released := h.released
  popped := h.popped
  popped_at := h.popped_at

theorem start (N L : Nat) (len : Nat → UInt32) (payload : Nat → Nat → UInt8) :
    RingInv N L (RingState.start (UMem.start N len payload) : RingState ι Nat UMem) [] where
  tail_eq := rfl
  reserved_at := by simp [reserves]
  freed_le := Nat.le_refl _
  tail_le := Nat.zero_le _
  push_ok := fun _ => trivial
  small := fun _ _ h => by cases h
  pop_ok := trivial
  slot := fun p _ hp => by
    have hp : p < 0 + N := hp
    have hpN : p % N = p := Nat.mod_eq_of_lt (by omega)
    refine .inl ⟨?_, fun h => absurd h (Nat.not_lt_zero p)⟩
    show (if p % N < N then p % N else 0) = p
    rw [hpN, if_pos (by omega)]
  published := fun p => by
    simp only [published_nil, false_iff]
    rintro (h | ⟨hp, h⟩)
    · exact absurd h (Nat.not_lt_zero p)
    · have hp : p < 0 + N := hp
      have hpN : p % N = p := Nat.mod_eq_of_lt (by omega)
      have h : (if p % N < N then p % N else 0) = p + 1 := h
      rw [hpN, if_pos (by omega)] at h
      omega
  released := rfl
  popped := rfl
  popped_at := by simp [pops]

/-- `diff = 0` on a tail that was read before: the slot is free for the position. -/
theorem free_of_seq_eq (hN : 2 ≤ N) (h : RingInv N L s log) {pos : Nat}
    (hpos : pos ≤ s.mem.tail) (hseq : s.mem.seq (pos % N) = pos) : pos < freed s + N := by
  by_contra hge
  -- otherwise pos is one lap above the oldest position, whose slot it shares
  have ht := h.tail_le
  obtain rfl : pos = freed s + N := by omega
  rw [Nat.add_mod_right] at hseq
  rcases h.slot (freed s) (Nat.le_refl _) (by omega) with ⟨hs, _⟩ | ⟨hs, _⟩ <;> omega

/-- Outside its two stores the consumer's next position is published when its slot says so. -/
theorem published_head (hN : 2 ≤ N) (h : RingInv N L s log) (hf : freed s = s.mem.head) :
    Published log s.mem.head ↔ s.mem.seq (s.mem.head % N) = s.mem.head + 1 := by
  rw [h.published, hf]
  constructor
  · rintro (hlt | ⟨_, hseq⟩)
    · omega
    · exact hseq
  · exact fun hseq => .inr ⟨by omega, hseq⟩

theorem pushTrans (hN : 2 ≤ N) (h : RingInv N L s log) {i : ι}
    {spurious : Bool} {pc pc' : PushPc Nat} {m : UMem} {pev : List (PushEvent Nat)}
    (hpc : s.push i = pc) (ht : PushTrans (unboundedOps N L) spurious pc s.mem pc' m pev) :
    RingInv N L { s with mem := m, push := Function.update s.push i pc' }
      (log ++ pev.map (.push i)) := by
  have hok := h.push_ok i
  have hsmall := h.small i
  rw [hpc] at hok hsmall
  cases ht with
  | @loadTail data _ pos ht =>
    obtain rfl : s.mem.tail = pos := Option.some.inj ht
    refine h.quiet_push (.tailLoad i) (by simp [hpc, PushPc.writing]) ?_ hsmall ?_
    · show s.mem.tail + reservedSince i (log ++ [.push i .tailLoad]) = s.mem.tail
      rw [reservedSince_tailLoad, if_pos rfl]
      rfl
    · intro j hj
      exact (reservedSince_tailLoad j i).trans (if_neg (Ne.symm hj))
  | @free data pos _ seq hs hd =>
    obtain rfl : s.mem.seq (pos % N) = seq := Option.some.inj hs
    have hd : (s.mem.seq (pos % N) : Int) - pos = 0 := hd
    have hok : pos + reservedSince i log = s.mem.tail := hok
    have hfree := h.free_of_seq_eq hN (show pos ≤ s.mem.tail by omega) (by omega)
    exact h.quiet_push .nil (by simp [hpc, PushPc.writing])
      ⟨by simpa using hok, hfree⟩ hsmall (by simp)
  | full =>
    exact h.quiet_push (.full i)
      (by simp [hpc, PushPc.writing]) trivial (fun _ hd => by cases hd) (by simp [reservedSince])
  | stale =>
    exact h.quiet_push .nil (by simp [hpc, PushPc.writing]) trivial
      hsmall (by simp)
  | spurious =>
    exact h.quiet_push (.casFail i true)
      (by simp [hpc, PushPc.writing]) trivial hsmall (by simp [reservedSince])
  | @won data pos _ _ _ hc =>
    simp only [unboundedOps] at hc
    split at hc
    · rename_i heq
      subst heq
      cases hc
      exact h.reserve hpc
    · cases hc
  | @lost data pos _ _ _ hc =>
    simp only [unboundedOps] at hc
    split at hc
    · cases hc
    · cases hc
      exact h.quiet_push (.casFail i false)
        (by simp [hpc, PushPc.writing]) trivial hsmall (by simp [reservedSince])
  | @writeLen data pos _ _ hm =>
    obtain ⟨hf, hr, hseq⟩ := hok
    cases hm
    have hw : (s.push i).writing = some (data, pos) := by simp [hpc, PushPc.writing]
    refine (List.append_nil log).symm ▸
      h.write_slot hw rfl rfl rfl rfl ?_ ⟨hf, hr, hseq, Function.update_self ..⟩
    intro k hk
    exact ⟨Function.update_of_ne hk _ _, rfl⟩
  | @writePayload data pos _ _ hm =>
    obtain ⟨hf, hr, hseq, hlen⟩ := hok
    cases hm
    have hw : (s.push i).writing = some (data, pos) := by simp [hpc, PushPc.writing]
    refine (List.append_nil log).symm ▸ h.write_slot hw rfl rfl rfl rfl ?_ ⟨hf, hr, hseq, hlen, ?_⟩
    · intro k hk
      exact ⟨rfl, Function.update_of_ne hk _ _⟩
    · show (List.range data.length).map (Function.update s.mem.payload (pos % N) _ (pos % N)) = data
      rw [Function.update_self]
      exact List.ext_get (by simp) fun k h1 h2 => by simp [h2]
  | publish hm =>
    cases hm
    exact h.publish hpc

theorem popTrans (hN : 2 ≤ N) (h : RingInv N L s log) {pc pc' : PopPc Nat} {m : UMem}
    {pev : List (PopEvent Nat)} (hpc : s.pop = pc)
    (ht : PopTrans (unboundedOps N L) pc s.mem pc' m pev) :
    RingInv N L { s with mem := m, pop := pc' } (log ++ pev.map .pop) := by
  have hok := h.pop_ok
  rw [hpc] at hok
  -- outside the two stores the consumer's steps do not move the window
  have hfreed : ∀ {pc'}, (∀ out head, s.pop ≠ .storeHead out head) →
      (∀ out head, pc' ≠ .storeHead out head) → freed { s with pop := pc' } = freed s := by
    intro pc' h1 h2
    rw [freed_eq_head h1, freed_eq_head h2]
  cases ht with
  | loadHead hh =>
    cases hh
    exact h.quiet_pop .nil (hfreed (by simp [hpc]) (by simp)) rfl
      (by simp)
  | @empty out head _ _ _ _ =>
    exact h.quiet_pop (.none out)
      (hfreed (by simp [hpc]) (by simp)) trivial (by simp [reservedSince])
  | @ready out head _ hq =>
    have hseq : s.mem.seq (head % N) = head + 1 := Option.some.inj hq
    exact h.quiet_pop .nil (hfreed (by simp [hpc]) (by simp))
      ⟨hok, hseq⟩ (by simp)
  | readLen hl =>
    cases hl
    exact h.quiet_pop .nil (hfreed (by simp [hpc]) (by simp))
      ⟨hok.1, hok.2, rfl⟩ (by simp)
  | readPayload hb =>
    cases hb
    obtain ⟨rfl, hseq, rfl⟩ := hok
    have hf : freed s = s.mem.head := freed_eq_head (by simp [hpc])
    have hr : Reserved log s.mem.head ((List.range (s.mem.len (s.mem.head % N)).toNat).map
        (s.mem.payload (s.mem.head % N))) := by
      rcases h.slot s.mem.head (by omega) (by omega) with ⟨hs, _⟩ | ⟨_, i, data, hr, hh⟩
      · omega
      · exact ⟨i, data, hr, hh.read⟩
    exact h.quiet_pop .nil (hfreed (by simp [hpc]) (by simp)) ⟨rfl, hseq, hr.append⟩ (by simp)
  | release hm =>
    cases hm
    exact h.release hpc
  | storeHead hm =>
    cases hm
    exact h.storeHead hpc

theorem step (hN : 2 ≤ N) (h : RingInv N L s log) {a : RingAction ι}
    {s' : RingState ι Nat UMem} (hs : ringStep (unboundedOps N L) s a = some (s', ev)) :
    RingInv N L s' (log ++ ev) := by
  cases ringTrans_of_step hs with
  | @call i data hready =>
    have hw : (s.push i).writing = none := by
      generalize s.push i = pc at hready
      cases pc <;> first | rfl | cases hready
    refine h.quiet_push ⟨rfl, rfl, rfl, by simp [Published]⟩ hw ?_ ?_ (by simp [reservedSince])
    · unfold pushCall
      split <;> trivial
    · intro d hd
      unfold pushCall at hd
      split at hd
      · cases hd
      · rename_i hlen
        cases hd
        exact Nat.le_of_not_lt hlen
  | push ht => exact h.pushTrans hN rfl ht
  | popCall hready =>
    have hpop : ∀ o hd, s.pop ≠ .storeHead o hd := by
      intro o hd heq
      rw [heq] at hready
      cases hready
    refine h.quiet_pop ⟨rfl, rfl, rfl, by simp [Published]⟩ ?_ trivial (by simp [reservedSince])
    rw [freed_eq_head hpop, freed_eq_head (by simp)]
  | pop ht => exact h.popTrans hN rfl ht
  | @state v m hm =>
    cases hm
    exact (List.append_nil log).symm ▸ h.setState v

end RingInv

end ShmMpsc
