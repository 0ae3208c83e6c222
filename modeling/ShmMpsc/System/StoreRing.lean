import ShmMpsc.System.StoreOrder

/-!
# Every step keeps the distance

A store is made in the ring at once and put into its thread's buffer; its arrival changes
the memory that lags and nothing else. What each of them keeps of the distance is one
lemma each, and a step that only moves a program counter is `quiet_push` or `quiet_pop`.
-/

namespace ShmMpsc

set_option autoImplicit false

variable {ι : Type} [DecidableEq ι] {N L c : Nat} {u : RingState ι Nat UMem}
  {log : List (RingEvent ι Nat)} {w : Buffered (Option ι) (Store Nat) UMem} {m v : UMem}

theorem claimed_le_tail (hI : RingInv N L u log) (hN : 0 < N) : claimed u ≤ u.mem.tail := by
  have hok := hI.pop_ok
  have hfreed := hI.freed_le
  have hhead : u.mem.head ≤ freed u := head_le_freed u
  -- the slot of a message that is being read holds one that was reserved
  have hread : (∀ out head, u.pop ≠ .storeHead out head) →
      u.mem.seq (u.mem.head % N) = u.mem.head + 1 → u.mem.head + 1 ≤ u.mem.tail := by
    intro hpop hs
    have hf := freed_eq_head hpop
    rcases hI.slot u.mem.head (by omega) (by omega) with ⟨hs', _⟩ | ⟨_, _, _, hr, _⟩
    · omega
    · exact hI.reserved_lt hr
  unfold claimed
  cases hpc : u.pop with
  | readLen out head =>
    rw [hpc] at hok
    obtain ⟨rfl, hs⟩ := hok
    exact hread (by simp [hpc]) hs
  | readPayload out head len =>
    rw [hpc] at hok
    obtain ⟨rfl, hs, _⟩ := hok
    exact hread (by simp [hpc]) hs
  | release out head =>
    rw [hpc] at hok
    obtain ⟨rfl, hs, _⟩ := hok
    exact hread (by simp [hpc]) hs
  | storeHead out head =>
    have hf := freed_storeHead hpc
    show u.mem.head + 1 ≤ _
    omega
  | idle => exact hhead.trans hfreed
  | loadHead out => exact hhead.trans hfreed
  | loadSeq out head => exact hhead.trans hfreed
  | done r out => exact hhead.trans hfreed

omit [DecidableEq ι] in
theorem Front.frame {i : ι} {p : Nat} {u' : RingState ι Nat UMem} {ev : List (RingEvent ι Nat)}
    {w' : Buffered (Option ι) (Store Nat) UMem} (h : Front N L u log w i p)
    (hpc : (u'.push i).writing = (u.push i).writing) (hbuf : w'.buf (some i) = w.buf (some i))
    (hseq : w.buf (some i) ≠ [] → w'.mem.seq (p % N) = w.mem.seq (p % N) ∧ freed u' ≤ p) :
    Front N L u' (log ++ ev) w' i p where
  issued := by
    rw [hbuf, hpc]
    exact h.issued
  writing := by
    rw [hpc]
    exact h.writing
  waiting := by
    rw [hbuf]
    intro hb
    obtain ⟨hs, _, data, hr⟩ := h.waiting hb
    exact ⟨(hseq hb).1.trans hs, (hseq hb).2, data, reserves_getElem_append hr⟩

namespace Behind

/-! ### Arrivals -/

theorem commit_producer (h : Behind N L u log w c) (hI : RingInv N L u log) {i : ι} {e : Store Nat}
    {es : List (Store Nat)} (hb : w.buf (some i) = e :: es)
    (hm : e.apply (unboundedOps N L) w.mem = some m) :
    Behind N L u log { mem := m, buf := Function.update w.buf (some i) es } c := by
  obtain ⟨p, hF⟩ := h.front i
  have hiss := hF.issued
  rw [hb] at hiss
  obtain ⟨hs, hp, data, hr⟩ := hF.waiting (by simp [hb])
  have hlt := hI.reserved_lt hr
  have hle := h.le
  have hroom := h.room
  have htail := hI.tail_le
  -- only the slot of position p changes
  have hkeep : ∀ q, q % N ≠ p % N → m.seq (q % N) = w.mem.seq (q % N) := by
    intro q hq
    have hslot := slot_changes (k := q % N) e _ _ hm
    rw [(hiss.of e List.mem_cons_self).untouched (Ne.symm hq)] at hslot
    exact congrArg Slot.seq hslot
  refine ⟨(tail_changes e _ _ hm).trans h.tail, h.head.commit head_changes hb hm,
    fun k => (h.slot k).imp fun t ho => ho.commit slot_changes hb hm,
    fun j => ?_, by simpa using h.back, hroom, h.reserving, fun q hq hq' => ?_⟩
  · by_cases hj : j = i
    · subst hj
      have hself : Function.update w.buf (some j) es (some j) = es := Function.update_self ..
      refine ⟨p, ?_, hF.writing, ?_⟩
      · show Issued L p _ (Function.update w.buf (some j) es (some j))
        rw [hself]
        cases e with
        | len pos x => exact hiss.2
        | payload pos bs => exact hiss.2.2
        | seq pos x => rw [hiss.2.2.2]; trivial
        | head x => cases hiss
        | state x => cases hiss
      · show Function.update w.buf (some j) es (some j) ≠ [] → _
        rw [hself]
        intro hes
        refine ⟨?_, hp, data, hr⟩
        cases e with
        | len pos x => cases hm; exact hs
        | payload pos bs => cases hm; exact hs
        | seq pos x => exact absurd hiss.2.2.2 hes
        | head x => cases hiss
        | state x => cases hiss
    · obtain ⟨p', hF'⟩ := h.front j
      have hF' : Front N L u (log ++ [])
          { mem := m, buf := Function.update w.buf (some i) es } j p' := by
        refine hF'.frame rfl (by simp [hj]) fun hb' => ?_
        obtain ⟨_, hp', _, hr'⟩ := hF'.waiting hb'
        have hlt' := hI.reserved_lt hr'
        refine ⟨hkeep p' (window_slot_ne hp' (by omega) hp (by omega) ?_), hp'⟩
        rintro rfl
        rw [hr] at hr'
        cases hr'
        exact hj rfl
      rw [List.append_nil] at hF'
      exact ⟨p', hF'⟩
  · have hshown := h.shown q hq hq'
    have hclaimed := claimed_le_tail hI (by omega)
    show m.seq (q % N) = q + 1
    rw [hkeep q (window_slot_ne hq (by omega) (by omega : c ≤ p) (by omega) ?_), hshown]
    rintro rfl
    omega

theorem commit_consumer (h : Behind N L u log w c) (hI : RingInv N L u log) {e : Store Nat}
    {es : List (Store Nat)} (hb : w.buf none = e :: es)
    (hm : e.apply (unboundedOps N L) w.mem = some m) :
    ∃ c', Behind N L u log { mem := m, buf := Function.update w.buf none es } c' := by
  have hback := h.back
  rw [hb] at hback
  have hroom := h.room
  have hhead := h.head.commit head_changes hb hm
  have hslot : ∀ k, ∃ t, Buffered.Owns (UMem.slot k) (Store.onSlot N k) t (u.mem.slot k)
      { mem := m, buf := Function.update w.buf none es } := fun k =>
    (h.slot k).imp fun t ho => ho.commit slot_changes hb hm
  -- a store that releases nothing
  have hsame : m.seq = w.mem.seq → Returned N c (freed u) es →
      Behind N L u log { mem := m, buf := Function.update w.buf none es } c := by
    intro hseq hback
    refine ⟨(tail_changes e _ _ hm).trans h.tail, hhead, hslot, fun j => ?_, by simpa using hback,
      hroom, h.reserving, fun q hq hq' => ?_⟩
    · obtain ⟨p, hF⟩ := h.front j
      refine ⟨p, by simpa using hF.issued, hF.writing, ?_⟩
      simpa [hseq] using hF.waiting
    · show m.seq (q % N) = q + 1
      rw [hseq]
      exact h.shown q hq hq'
  cases e with
  | head x => cases hm; exact ⟨c, hsame rfl hback⟩
  | state x => cases hm; exact ⟨c, hsame rfl hback⟩
  | len pos x => cases hback
  | payload pos bs => cases hback
  | seq pos x =>
    obtain ⟨rfl, rfl, hback⟩ := hback
    have hlt := hback.le
    have htail := hI.tail_le
    have hfreed := hI.freed_le
    have hkeep : ∀ q, q % N ≠ pos % N → m.seq (q % N) = w.mem.seq (q % N) := by
      intro q hq
      cases hm
      exact Function.update_of_ne hq _ _
    refine ⟨pos + 1, (tail_changes _ _ _ hm).trans h.tail, hhead, hslot, fun j => ?_,
      by simpa using hback, by omega, fun i data q hq => ?_, fun q hq hq' => ?_⟩
    · obtain ⟨p, hF⟩ := h.front j
      refine ⟨p, by simpa using hF.issued, hF.writing, fun hb' => ?_⟩
      have hb' : w.buf (some j) ≠ [] := by simpa using hb'
      obtain ⟨hs, hp, data, hr⟩ := hF.waiting hb'
      have hlt' := hI.reserved_lt hr
      refine ⟨?_, hp, data, hr⟩
      show m.seq (p % N) = p
      rw [hkeep p (window_slot_ne (f := pos) (by omega) (by omega) (Nat.le_refl _) (by omega)
        (by omega)), hs]
    · have hq := h.reserving i data q hq
      omega
    · have hclaimed := claimed_le_tail hI (by omega)
      show m.seq (q % N) = q + 1
      rw [hkeep q (window_slot_ne (f := pos) (by omega) (by omega) (Nat.le_refl _)
        (by omega) (by omega)), h.shown q (by omega) hq']

theorem flush (h : Behind N L u log w c) (hI : RingInv N L u log) {i : ι}
    (hv : w.view (Store.apply (unboundedOps N L)) (some i) = some v) :
    Behind N L u log { mem := v, buf := Function.update w.buf (some i) [] } c := by
  unfold Buffered.view at hv
  generalize hes : w.buf (some i) = es at hv
  induction es generalizing w with
  | nil =>
    cases hv
    have hid : Function.update w.buf (some i) [] = w.buf := by rw [← hes, Function.update_eq_self]
    rwa [hid]
  | cons e es ih =>
    obtain ⟨m, hm, hv⟩ := Option.bind_eq_some_iff.mp hv
    have h1 := ih (h.commit_producer hI hes hm) (by simp) hv
    simpa using h1

/-! ### Steps without a store -/

/-- A step of producer `i` that stores nothing. -/
theorem quiet_push (h : Behind N L u log w c) {i : ι} {pc : PushPc Nat}
    (ev : List (RingEvent ι Nat)) (hw : pc.writing = (u.push i).writing)
    (hc : ∀ data pos, pc = .cas data pos → pos < c + N) :
    Behind N L { u with push := Function.update u.push i pc } (log ++ ev) w c := by
  refine ⟨h.tail, h.head, h.slot, fun j => ?_, h.back, h.room, fun j data pos hj => ?_, h.shown⟩
  · obtain ⟨p, hF⟩ := h.front j
    refine ⟨p, hF.frame ?_ rfl fun hb => ⟨rfl, (hF.waiting hb).2.1⟩⟩
    by_cases hji : j = i
    · subst hji
      simpa using hw
    · simp [hji]
  · by_cases hji : j = i
    · subst hji
      exact hc data pos (by simpa using hj)
    · exact h.reserving j data pos (by simpa [hji] using hj)

omit [DecidableEq ι] in
theorem quiet_pop (h : Behind N L u log w c) {pc : PopPc Nat} (ev : List (RingEvent ι Nat))
    (hf : freed { u with pop := pc } = freed u)
    (hs : ∀ q, c ≤ q → q < claimed { u with pop := pc } → w.mem.seq (q % N) = q + 1) :
    Behind N L { u with pop := pc } (log ++ ev) w c := by
  refine ⟨h.tail, h.head, h.slot, fun j => ?_, ?_, h.room, h.reserving, hs⟩
  · obtain ⟨p, hF⟩ := h.front j
    exact ⟨p, hF.frame rfl rfl fun hb => ⟨rfl, hf ▸ (hF.waiting hb).2.1⟩⟩
  · rw [hf]
    exact h.back

omit [DecidableEq ι] in
theorem setState (h : Behind N L u log w c) (x : UInt64) :
    Behind N L u log { w with mem := { w.mem with state := x } } c :=
  ⟨h.tail, ⟨h.head.alone, h.head.made⟩, fun k => (h.slot k).imp fun _ ho => ⟨ho.alone, ho.made⟩,
    fun i => (h.front i).imp fun _ hF => ⟨hF.issued, hF.writing, hF.waiting⟩, h.back, h.room,
    h.reserving, h.shown⟩

theorem reserve (h : Behind N L u log w c) {i : ι} {data : List UInt8}
    (hpc : u.push i = .cas data u.mem.tail) (hb : w.buf (some i) = []) :
    Behind N L { u with
      mem := { u.mem with tail := u.mem.tail + 1 },
      push := Function.update u.push i (.writeLen data u.mem.tail) }
      (log ++ [.push i (.reserve data u.mem.tail)])
      { w with mem := { w.mem with tail := u.mem.tail + 1 } } c := by
  refine ⟨rfl, ⟨h.head.alone, h.head.made⟩, fun k => (h.slot k).imp fun _ ho => ⟨ho.alone, ho.made⟩,
    fun j => ?_, h.back, h.reserving i data _ hpc, fun j d pos hj => ?_, h.shown⟩
  · by_cases hji : j = i
    · subst hji
      refine ⟨u.mem.tail, ?_, fun d pos hw => ?_, fun hne => absurd hb hne⟩
      · rw [hb]
        trivial
      · simp only [Function.update_self, PushPc.writing, Option.some.injEq, Prod.mk.injEq] at hw
        exact hw.2.symm
    · obtain ⟨p, hF⟩ := h.front j
      exact ⟨p, hF.frame (by simp [hji]) rfl fun hb => ⟨rfl, (hF.waiting hb).2.1⟩⟩
  · by_cases hji : j = i
    · subst hji
      simp at hj
    · exact h.reserving j d pos (by simpa [hji] using hj)

/-! ### Stores -/

theorem slot_store (h : Behind N L u log w c) {t : Option ι} {e : Store Nat}
    (hm : e.apply (unboundedOps N L) u.mem = some m)
    (hown : ∀ k, (∀ v, Store.onSlot N k v e = v) ∨
      Buffered.Owns (UMem.slot k) (Store.onSlot N k) t (u.mem.slot k) w) (k : Nat) :
    ∃ t', Buffered.Owns (UMem.slot k) (Store.onSlot N k) t' (m.slot k)
      { w with buf := Function.update w.buf t (w.buf t ++ [e]) } := by
  rw [slot_changes e _ _ hm]
  rcases hown k with hk | ho
  · obtain ⟨t', ho⟩ := h.slot k
    rw [hk]
    exact ⟨t', ho.store_other hk⟩
  · exact ⟨t, ho.store e⟩

theorem write (h : Behind N L u log w c) (hI : RingInv N L u log) {i : ι} {data : List UInt8}
    {p : Nat} {pc : PushPc Nat} {e : Store Nat} (ev : List (RingEvent ι Nat))
    (hold : (u.push i).writing = some (data, p)) (he : Issued L p (pc.writing = none) [e])
    (hnew : ∀ d pos, pc.writing = some (d, pos) → pos = p) (hcas : ∀ d pos, pc ≠ .cas d pos)
    (hm : e.apply (unboundedOps N L) u.mem = some m) :
    Behind N L { u with mem := m, push := Function.update u.push i pc } (log ++ ev)
      { w with buf := Function.update w.buf (some i) (w.buf (some i) ++ [e]) } c := by
  obtain ⟨hp, hlt, hr, hs⟩ := hI.of_writing hold
  have hown := h.owned_by_producer hI hp hr
  have hof : e.Of L p := he.of e (List.mem_singleton_self e)
  have htail : m.tail = u.mem.tail := tail_changes e _ _ hm
  have hhead : m.head = u.mem.head := (head_changes e _ _ hm).trans (hof.not_head _)
  have hfreed : freed { u with mem := m, push := Function.update u.push i pc } = freed u := by
    simp only [freed, hhead]
  have hclaimed : claimed { u with mem := m, push := Function.update u.push i pc } = claimed u := by
    simp only [claimed, hhead]
  refine ⟨h.tail.trans htail.symm, ?_, h.slot_store hm fun k => ?_, fun j => ?_, ?_, ?_,
    fun j d pos hj => ?_, ?_⟩
  · show Buffered.Owns UMem.head Store.onHead none m.head _
    rw [hhead]
    exact h.head.store_other hof.not_head
  · by_cases hk : p % N = k
    · subst hk
      exact .inr hown
    · exact .inl (hof.untouched hk)
  · by_cases hji : j = i
    · subst hji
      obtain ⟨p', hF⟩ := h.front j
      obtain rfl := hF.writing _ _ hold
      refine ⟨p, ?_, by simpa using hnew, fun _ => ?_⟩
      · simp only [Function.update_self]
        exact (hF.issued.mono (by simp [hold])).snoc he
      · rw [hfreed]
        refine ⟨?_, hp, data, reserves_getElem_append hr⟩
        by_cases hb : w.buf (some j) = []
        · exact (congrArg Slot.seq (hown.mem_of_flushed hb)).trans hs
        · exact (hF.waiting hb).1
    · obtain ⟨p', hF⟩ := h.front j
      refine ⟨p', hF.frame (by simp [hji]) (by simp [hji]) fun hb => ⟨rfl, ?_⟩⟩
      rw [hfreed]
      exact (hF.waiting hb).2.1
  · rw [hfreed]
    simpa using h.back
  · show m.tail ≤ c + N
    rw [htail]
    exact h.room
  · by_cases hji : j = i
    · subst hji
      exact absurd (by simpa using hj) (hcas d pos)
    · exact h.reserving j d pos (by simpa [hji] using hj)
  · rw [hclaimed]
    exact h.shown

/-- A store of the consumer: what it releases it has claimed, and no producer writes there. -/
theorem giveBack (h : Behind N L u log w c) (hI : RingInv N L u log) (hN : 0 < N) {pc : PopPc Nat}
    {e : Store Nat} (ev : List (RingEvent ι Nat))
    (he : Returned N (freed u) (freed { u with mem := m, pop := pc }) [e])
    (hclaimed : claimed { u with mem := m, pop := pc } = claimed u)
    (hle : freed { u with mem := m, pop := pc } ≤ claimed u)
    (hm : e.apply (unboundedOps N L) u.mem = some m) :
    Behind N L { u with mem := m, pop := pc } (log ++ ev)
      { w with buf := Function.update w.buf none (w.buf none ++ [e]) } c := by
  have htail : m.tail = u.mem.tail := tail_changes e _ _ hm
  have hup := he.le
  have hcf := h.le
  have hback := he.back e (List.mem_singleton_self e)
  -- a position that is released is shown as published
  have hshown : ∀ q, freed u ≤ q → q < freed { u with mem := m, pop := pc } →
      w.mem.seq (q % N) = q + 1 :=
        fun q hq hq' => h.shown q (hcf.trans hq) (Nat.lt_of_lt_of_le hq' hle)
  refine ⟨h.tail.trans htail.symm, ?_, h.slot_store hm fun k => ?_, fun j => ?_, ?_, ?_,
    h.reserving, ?_⟩
  · show Buffered.Owns UMem.head Store.onHead none m.head _
    rw [show m.head = Store.onHead u.mem.head e from head_changes e _ _ hm]
    exact h.head.store e
  · by_cases hk : ∃ q, freed u ≤ q ∧ q < freed { u with mem := m, pop := pc } ∧ q % N = k
    · obtain ⟨q, hq, hq', rfl⟩ := hk
      have hs := hshown q hq hq'
      have hlt := hle.trans (claimed_le u)
      have hfh : u.mem.head ≤ freed u := head_le_freed u
      exact .inr (h.owned_by_consumer hI hq (by omega) (by omega))
    · exact .inl (hback.untouched fun q hq hq' hqk => hk ⟨q, hq, hq', hqk⟩)
  · obtain ⟨p, hF⟩ := h.front j
    refine ⟨p, hF.frame rfl (by simp) fun hb => ⟨rfl, ?_⟩⟩
    obtain ⟨hs, hp, _⟩ := hF.waiting hb
    by_contra hge
    have := hshown p hp (by omega)
    omega
  · simpa using h.back.snoc he
  · show m.tail ≤ c + N
    rw [htail]
    exact h.room
  · rw [hclaimed]
    exact h.shown

theorem storeState (h : Behind N L u log w c) (x : UInt64) :
    Behind N L u log { w with buf := Function.update w.buf none (w.buf none ++ [.state x]) } c := by
  refine ⟨h.tail, h.head.store_other fun _ => rfl, fun k => ?_, fun j => ?_, ?_,
    h.room, h.reserving, h.shown⟩
  · exact (h.slot k).imp fun _ ho => ho.store_other fun _ => rfl
  · obtain ⟨p, hF⟩ := h.front j
    exact ⟨p, by simpa using hF.issued, hF.writing, by simpa using hF.waiting⟩
  · have hnil : Returned N (freed u) (freed u) [.state x] := Eq.refl (freed u)
    simpa using h.back.snoc hnil

/-! ### The steps of the two functions -/

/-- A step of `push` on what its thread sees is a step of the ring, or one that stores nothing. -/
theorem pushTrans (h : Behind N L u log w c) (hI : RingInv N L u log) (hN : 2 ≤ N) {i : ι}
    {spurious : Bool} {pc pc' : PushPc Nat} {v v' : UMem} {ev : List (PushEvent Nat)}
    (hpc : u.push i = pc) (hv : w.view (Store.apply (unboundedOps N L)) (some i) = some v)
    (ht : PushTrans (unboundedOps N L) spurious pc v pc' v' ev) :
    ∃ m, RingInv N L { u with mem := m, push := Function.update u.push i pc' }
        (log ++ ev.map (.push i)) ∧
      Behind N L { u with mem := m, push := Function.update u.push i pc' } (log ++ ev.map (.push i))
        (leaves (some i) w (pc.store (unboundedOps N L)) (pc.locked spurious) v') c := by
  have hok := hI.push_ok i
  have hsmall := hI.small i
  rw [hpc] at hok hsmall
  have htail : v.tail = u.mem.tail := by
    rw [tail_changes.view hv, Buffered.foldl_untouched fun _ _ _ => rfl, h.tail]
  have hflush := h.flush hI hv
  cases ht with
  | @loadTail data _ pos hp =>
    have hp : v.tail = pos := Option.some.inj hp
    have hload : (unboundedOps N L).loadTail u.mem = some pos := congrArg some (htail.symm.trans hp)
    have hring := hI.pushTrans hN hpc (@PushTrans.loadTail _ _ _ spurious data _ _ hload)
    exact ⟨_, hring, h.quiet_push _ (by simp [hpc, PushPc.writing]) (by simp)⟩
  | @free data pos _ seq hs hd =>
    have hs : v.seq (pos % N) = seq := Option.some.inj hs
    have hd : (seq : Int) - pos = 0 := hd
    have hpos : pos + reservedSince i log = u.mem.tail := hok
    have hlt := h.free_of_seq_eq hI hN hv (show pos ≤ u.mem.tail by omega) (by omega)
    have hle := h.le
    refine ⟨u.mem,
      hI.quiet_push .nil (by simp [hpc, PushPc.writing]) ⟨by simpa using hpos, by omega⟩
      hsmall (by simp), h.quiet_push _ (by simp [hpc, PushPc.writing]) ?_⟩
    rintro d p ⟨⟩
    exact hlt
  | full =>
    exact ⟨u.mem, hI.quiet_push (.full i) (by simp [hpc, PushPc.writing]) trivial
      (fun _ hd => by cases hd) (by simp [reservedSince]),
      h.quiet_push _ (by simp [hpc, PushPc.writing]) (by simp)⟩
  | stale =>
    exact ⟨u.mem, hI.quiet_push .nil (by simp [hpc, PushPc.writing]) trivial hsmall (by simp),
      h.quiet_push _ (by simp [hpc, PushPc.writing]) (by simp)⟩
  | spurious hsp =>
    subst hsp
    exact ⟨u.mem, hI.pushTrans hN hpc (.spurious rfl),
      h.quiet_push _ (by simp [hpc, PushPc.writing]) (by simp)⟩
  | @won data pos _ _ hsp hc =>
    subst hsp
    simp only [unboundedOps] at hc
    split at hc
    · rename_i heq
      obtain rfl : u.mem.tail = pos := htail.symm.trans heq
      cases hc
      exact ⟨_, hI.reserve hpc, hflush.reserve hpc (by simp)⟩
    · cases hc
  | @lost data pos _ _ hsp hc =>
    subst hsp
    simp only [unboundedOps] at hc
    split at hc
    · cases hc
    · cases hc
      exact ⟨u.mem, hI.quiet_push (.casFail i false) (by simp [hpc, PushPc.writing]) trivial hsmall
        (by simp [reservedSince]), hflush.quiet_push _ (by simp [hpc, PushPc.writing]) (by simp)⟩
  | @writeLen data pos _ _ hm =>
    have hold : (u.push i).writing = some (data, pos) := by simp [hpc, PushPc.writing]
    refine ⟨_, hI.pushTrans hN hpc (@PushTrans.writeLen _ _ _ spurious _ _ _ _ rfl),
      h.write hI _ hold
      (e := .len pos (UInt32.ofNat data.length)) ⟨rfl, trivial⟩ ?_ (by simp) rfl⟩
    rintro d p ⟨⟩
    rfl
  | @writePayload data pos _ _ hm =>
    have hold : (u.push i).writing = some (data, pos) := by simp [hpc, PushPc.writing]
    refine ⟨_, hI.pushTrans hN hpc (@PushTrans.writePayload _ _ _ spurious _ _ _ _ rfl),
      h.write hI _ hold
      (e := .payload pos data) ⟨rfl, hsmall data rfl, trivial⟩ ?_ (by simp) rfl⟩
    rintro d p ⟨⟩
    rfl
  | @publish data pos _ _ hm =>
    have hold : (u.push i).writing = some (data, pos) := by simp [hpc, PushPc.writing]
    refine ⟨_, hI.pushTrans hN hpc (@PushTrans.publish _ _ _ spurious _ _ _ _ rfl),
      h.write hI _ hold
      (e := .seq pos (pos + 1)) ⟨rfl, rfl, rfl, rfl⟩ ?_ (by simp) rfl⟩
    rintro d p ⟨⟩

theorem popTrans (h : Behind N L u log w c) (hI : RingInv N L u log) (hN : 2 ≤ N)
    {pc pc' : PopPc Nat} {v v' : UMem} {ev : List (PopEvent Nat)} (hpc : u.pop = pc)
    (hv : w.view (Store.apply (unboundedOps N L)) none = some v)
    (ht : PopTrans (unboundedOps N L) pc v pc' v' ev) :
    ∃ m, RingInv N L { u with mem := m, pop := pc' } (log ++ ev.map .pop) ∧
      Behind N L { u with mem := m, pop := pc' } (log ++ ev.map .pop)
        (leaves none w (pc.store (unboundedOps N L)) false v') c := by
  have hok := hI.pop_ok
  rw [hpc] at hok
  have hhead : v.head = u.mem.head := h.head.view head_changes hv
  -- outside its two stores the consumer moves neither bound
  have hfreed : ∀ {pc'}, (∀ out head, pc ≠ .storeHead out head) →
      (∀ out head, pc' ≠ .storeHead out head) → freed { u with pop := pc' } = freed u := by
    intro pc' h1 h2
    have h1 : ∀ out head, u.pop ≠ .storeHead out head := by
      rw [hpc]
      exact h1
    exact (freed_eq_head (s := { u with pop := pc' }) h2).trans (freed_eq_head h1).symm
  have hlow : ∀ {pc'}, claimed { u with pop := pc' } = u.mem.head →
      ∀ q, c ≤ q → q < claimed { u with pop := pc' } → w.mem.seq (q % N) = q + 1 := by
    intro pc' hcl q hq hq'
    refine h.shown q hq ?_
    have hge : u.mem.head ≤ claimed u := by
      unfold claimed
      split <;> omega
    omega
  cases ht with
  | @loadHead out _ head hh =>
    have hh : v.head = head := Option.some.inj hh
    have hring := hI.popTrans hN hpc (.loadHead (congrArg some (hhead.symm.trans hh)))
    exact ⟨_, hring, h.quiet_pop _ (hfreed (by simp) (by simp)) (hlow rfl)⟩
  | @empty out head _ _ _ _ =>
    exact ⟨u.mem, hI.quiet_pop (.none out) (hfreed (by simp) (by simp)) trivial
      (by simp [reservedSince]), h.quiet_pop _ (hfreed (by simp) (by simp)) (hlow rfl)⟩
  | @ready out head _ hq =>
    obtain rfl : head = u.mem.head := hok
    have hf : freed u = u.mem.head := freed_eq_head (by simp [hpc])
    have hs := h.mem_of_published hN hv (q := u.mem.head) (Option.some.inj hq)
    rw [← hf] at hs
    have hslot := h.view_of_published hI (by omega) hv hs
    rw [hf] at hs hslot
    have hq : u.mem.seq (u.mem.head % N) = u.mem.head + 1 :=
      (congrArg Slot.seq hslot).symm.trans (Option.some.inj hq)
    refine ⟨_, hI.popTrans hN hpc (.ready (congrArg some hq)),
      h.quiet_pop _ (hfreed (by simp) (by simp)) fun q hq hq' => ?_⟩
    have hq' : q < u.mem.head + 1 := hq'
    rcases Nat.lt_or_eq_of_le (Nat.lt_succ_iff.mp hq') with hlt | rfl
    · have hle := freed_le_claimed u
      exact h.shown q hq (by omega)
    · exact hs
  | @readLen out head _ len hl =>
    obtain ⟨rfl, hs⟩ := hok
    have hf : freed u = u.mem.head := freed_eq_head (by simp [hpc])
    have hcl : claimed u = u.mem.head + 1 := by simp [claimed, hpc]
    have hslot := h.view_of_published hI (by omega) hv (h.shown _ h.le (by omega))
    rw [hf] at hslot
    have hl : u.mem.len (u.mem.head % N) = len :=
      (congrArg Slot.len hslot).symm.trans (Option.some.inj hl)
    refine ⟨_, hI.popTrans hN hpc (.readLen (congrArg some hl)),
      h.quiet_pop _ (hfreed (by simp) (by simp)) fun q hq hq' => h.shown q hq ?_⟩
    rw [hcl]
    exact hq'
  | @readPayload out head len _ bs hb =>
    obtain ⟨rfl, hs, rfl⟩ := hok
    have hf : freed u = u.mem.head := freed_eq_head (by simp [hpc])
    have hcl : claimed u = u.mem.head + 1 := by simp [claimed, hpc]
    have hslot := h.view_of_published hI (by omega) hv (h.shown _ h.le (by omega))
    rw [hf] at hslot
    have hb : (unboundedOps N L).readPayload u.mem.head (u.mem.len (u.mem.head % N)).toNat u.mem =
        some bs := by
      have hpay : v.payload (u.mem.head % N) = u.mem.payload (u.mem.head % N) :=
        congrArg Slot.payload hslot
      simpa only [unboundedOps, hpay] using hb
    refine ⟨_, hI.popTrans hN hpc (.readPayload hb),
      h.quiet_pop _ (hfreed (by simp) (by simp)) fun q hq hq' => h.shown q hq ?_⟩
    rw [hcl]
    exact hq'
  | @release out head _ _ hm =>
    obtain ⟨rfl, _, _⟩ := hok
    have hf : freed u = u.mem.head := freed_eq_head (by simp [hpc])
    have hcl : claimed u = u.mem.head + 1 := by simp [claimed, hpc]
    refine ⟨_, hI.popTrans hN hpc (.release rfl),
      h.giveBack hI (by omega) (e := .seq u.mem.head _) _
      ?_ hcl.symm (Nat.le_of_eq hcl.symm) rfl⟩
    rw [hf]
    exact ⟨rfl, rfl, rfl⟩
  | @storeHead out head _ _ hm =>
    obtain ⟨rfl, _⟩ := hok
    have hf : freed u = u.mem.head + 1 := freed_storeHead hpc
    have hcl : claimed u = u.mem.head + 1 := by simp [claimed, hpc]
    refine ⟨_, hI.popTrans hN hpc (.storeHead rfl), h.giveBack hI (by omega) (e := .head _) _
      ?_ hcl.symm (Nat.le_of_eq hcl.symm) rfl⟩
    rw [hf]
    exact Eq.refl (u.mem.head + 1)

omit [DecidableEq ι] in
theorem start (N L : Nat) (len : Nat → UInt32) (payload : Nat → Nat → UInt8) :
    Behind N L (RingState.start (UMem.start N len payload) : RingState ι Nat UMem) []
      (.flushed (UMem.start N len payload)) 0 where
  tail := rfl
  head := .flushed _
  slot := fun k => ⟨none, .flushed _⟩
  front := fun _ => ⟨0, trivial, fun _ _ h => (by cases h), fun h => absurd rfl h⟩
  back := rfl
  room := Nat.zero_le _
  reserving := fun _ _ _ h => by cases h
  shown := fun q _ hq => absurd hq (Nat.not_lt_zero q)

end Behind

end ShmMpsc
