import ShmMpsc.System.Delivery

/-!
# The books of the parties

What the loops alone guarantee at every point of a run: which events every producer has
encoded and pushed, and what the consumer has counted of the messages it popped.
-/

namespace ShmMpsc

set_option autoImplicit false

open RingConfig

variable {ι C W M : Type}

/-! ### The producers -/

/-- Of `n` events the first `k` are encoded, and pushed. -/
structure Sent (n : UInt64) (E : List (UInt64 × List UInt8)) (P : List (List UInt8)) (k : Nat) :
    Prop where
  le : k ≤ n.toNat
  numbered : E.map Prod.fst = (List.range k).map UInt64.ofNat
  pushed : P = E.map Prod.snd

/-- And event `k` is encoded as `scratch`. -/
def Waiting (n : UInt64) (E : List (UInt64 × List UInt8)) (P : List (List UInt8)) (k : Nat)
    (scratch : List UInt8) : Prop :=
  k < n.toNat ∧ ∃ E', E = E' ++ [(UInt64.ofNat k, scratch)] ∧ Sent n E' P k

section Producers

variable {n : UInt64} {E : List (UInt64 × List UInt8)} {P : List (List UInt8)} {k : Nat}
  {scratch : List UInt8}

theorem Sent.encode (h : Sent n E P k) (hk : k < n.toNat) (data : List UInt8) :
    Waiting n (E ++ [(UInt64.ofNat k, data)]) P k data :=
  ⟨hk, E, rfl, h⟩

theorem Waiting.push (h : Waiting n E P k scratch) : Sent n E (P ++ [scratch]) (k + 1) := by
  obtain ⟨hk, E', rfl, h⟩ := h
  refine ⟨hk, ?_, ?_⟩
  · rw [List.map_append, h.numbered, List.range_succ, List.map_append]
    rfl
  · rw [List.map_append, h.pushed]
    rfl

/-- What a producer has done, by where it stands. -/
def ProducerOk (n : UInt64) (E : List (UInt64 × List UInt8)) (P : List (List UInt8))
    (scratch : List UInt8) (push : PushPc W) : ProducerPc W → Prop
  | .encode i => Sent n E P i.toNat
  | .push i =>
    if push.writing.isSome then Sent n E P (i.toNat + 1)
    else push.data = some scratch ∧ Waiting n E P i.toNat scratch
  | .sleep i => Waiting n E P i.toNat scratch
  | .casState i _ | .signal i _ => Sent n E P (i.toNat + 1)
  | .shutdown | .returned => Sent n E P n.toNat
  | .failed _ => ∃ k, Sent n E P k ∨ ∃ data, Waiting n E P k data

theorem Waiting.enterPush {i : UInt64} (h : Waiting n E P i.toNat scratch) (cfg : RingConfig)
    (ops : SegOps W M) :
    ProducerOk n E P scratch (pushCall ops scratch)
      (afterPush cfg scratch i (pushCall ops scratch)) := by
  unfold pushCall
  split
  · exact ⟨_, .inr ⟨_, h⟩⟩
  · exact ⟨rfl, h⟩

theorem Sent.next {i : UInt64} (h : Sent n E P (i.toNat + 1)) : Sent n E P (i + 1).toNat := by
  have hlt := n.toNat_lt
  have hle := h.le
  rwa [UInt64.toNat_add, UInt64.toNat_one, Nat.mod_eq_of_lt (by omega)]

section Steps

variable [DecidableEq ι] {cfg : RingConfig} {codec : Codec C} {ops : SegOps W M} {job : Job} {j : ι}
  {now : UInt64} {spurious : Bool} {p p' : Producer C W} {push push' : PushPc W} {m m' : M}
  {ev : List (SysEvent ι W)}

theorem ProducerOk.pushTrans {i : UInt64} (h : ProducerOk n E P scratch push (.push i))
    {pev : List (PushEvent W)} (ht : PushTrans ops spurious push m push' m' pev) :
    ProducerOk n E (P ++ pushes j (pev.map fun e => .ring (.push j e))) scratch push'
      (afterPush cfg scratch i push') := by
  have hnone {pev : List (PushEvent W)}
      (hres : reserves (pev.map (RingEvent.push j)) = []) :
      P ++ pushes j (pev.map fun e => .ring (.push j e)) = P := by
    simp [pushes, hres]
  cases ht with
  | @won _ pos _ _ _ hc =>
    obtain ⟨hd, hw⟩ := h
    cases hd
    have hone : pushes j [SysEvent.ring (.push j (.reserve scratch pos))] = [scratch] := by
      simp [pushes, ringLog, reserves]
    exact hone ▸ hw.push
  | full => rw [hnone rfl]; exact h.2
  | loadTail => rw [hnone rfl]; exact h
  | free => rw [hnone rfl]; exact h
  | stale => rw [hnone rfl]; exact h
  | spurious => rw [hnone rfl]; exact h
  | lost => rw [hnone rfl]; exact h
  | writeLen => rw [hnone rfl]; exact h
  | writePayload => rw [hnone rfl]; exact h
  | publish => rw [hnone rfl]; exact h

theorem ProducerOk.quiet (pc : ProducerPc W) (h : ProducerOk n E P scratch push pc)
    (he : encodings j ev = []) (hp : pushes j ev = []) :
    ProducerOk n (E ++ encodings j ev) (P ++ pushes j ev) scratch push pc := by
  rwa [he, hp, List.append_nil, List.append_nil]

theorem ProducerOk.step (h : ProducerOk job.n E P p.scratch push p.pc)
    (ht : ProducerTrans cfg codec ops job j now spurious p push m p' push' m' ev) :
    ProducerOk job.n (E ++ encodings j ev) (P ++ pushes j ev) p'.scratch push' p'.pc := by
  cases ht with
  | @encode i c data hpc hi he =>
    rw [hpc] at h
    have hw := (Sent.encode h (UInt64.lt_iff_toNat_lt.mp hi) data).enterPush cfg ops
    rw [UInt64.ofNat_toNat] at hw
    have he : encodings j ([.encode j i now data, .ring (.call j data)] : List (SysEvent ι W)) =
        [(i, data)] := by
      simp [encodings]
    have hp : pushes j
        ([.encode j i now data, .ring (.call j data)] : List (SysEvent ι W)) = [] := by
      simp [pushes, ringLog, reserves]
    rw [he, hp, List.append_nil]
    exact hw
  | @encodeErr i _ hpc =>
    rw [hpc] at h
    exact ProducerOk.quiet (.failed _) ⟨i.toNat, .inl h⟩ rfl rfl
  | @finish i hpc hi =>
    rw [hpc] at h
    have hn : i.toNat = job.n.toNat := Nat.le_antisymm (Sent.le h)
      (Nat.le_of_not_lt fun hlt => hi (UInt64.lt_iff_toNat_lt.mpr hlt))
    rw [ProducerOk, hn] at h
    exact ProducerOk.quiet .shutdown h rfl rfl
  | @push i _ _ pev hpc hr =>
    rw [hpc] at h
    have hnil : encodings j (pev.map fun e => SysEvent.ring (.push j e)) = [] := by
      simp [encodings, List.filterMap_map]
    rw [hnil, List.append_nil]
    exact h.pushTrans (pushTrans_of_step hr)
  | retry hpc =>
    rw [hpc] at h
    exact (Waiting.enterPush h cfg ops).quiet _ rfl rfl
  | @won i seq _ hpc =>
    rw [hpc] at h
    exact ProducerOk.quiet (.signal i seq) h rfl rfl
  | @lost i _ _ hpc =>
    rw [hpc] at h
    exact ProducerOk.quiet (.encode (i + 1)) (Sent.next h) rfl rfl
  | @signal i _ hpc =>
    rw [hpc] at h
    exact ProducerOk.quiet (.encode (i + 1)) (Sent.next h) rfl rfl
  | returned hpc =>
    rw [hpc] at h
    exact ProducerOk.quiet .returned h rfl rfl

theorem ProducerTrans.others
    (ht : ProducerTrans cfg codec ops job j now spurious p push m p' push' m' ev) {k : ι}
    (hk : k ≠ j) :
    encodings k ev = [] ∧ pushes k ev = [] := by
  have hjk : ¬ j = k := fun h => hk h.symm
  cases ht with
  | encode => simp [encodings, pushes, ringLog, reserves, hjk]
  | @push _ _ _ pev =>
    refine ⟨by simp [encodings, List.filterMap_map], ?_⟩
    simp only [pushes, ringLog_ring]
    refine List.filterMap_eq_nil_iff.mpr fun r hr => ?_
    obtain ⟨e, he, hr⟩ := List.mem_filterMap.mp hr
    obtain ⟨e', _, rfl⟩ := List.mem_map.mp he
    cases e' with
    | reserve data pos =>
      cases hr
      exact if_neg hjk
    | _ => cases hr
  | _ => exact ⟨rfl, rfl⟩

end Steps

theorem ConsumerTrans.quiet [DecidableEq ι] {codec : Codec C} {ops : SegOps W M} {stop : Bool}
    {c c' : Consumer C} {pop pop' : PopPc W} {m m' : M} {ev : List (SysEvent ι W)}
    (ht : ConsumerTrans ι codec ops stop c pop m c' pop' m' ev) (k : ι) :
    encodings k ev = [] ∧ pushes k ev = [] := by
  have hpop (pev : List (PopEvent W)) :
      encodings k (pev.map fun e => (.ring (.pop e) : SysEvent ι W)) = [] ∧
        pushes k (pev.map fun e => (.ring (.pop e) : SysEvent ι W)) = [] := by
    simp [encodings, pushes, reserves, List.filterMap_map]
  cases ht with
  | drain => exact hpop _
  | recheck => exact hpop _
  | _ => exact ⟨rfl, rfl⟩

end Producers

section System

variable [DecidableEq ι] [DecidableEq W] {cfg : RingConfig} {codec : Codec C} {mm : MemModel ι W M}
  {jobs : ι → Job} {s s' : System ι C W M} {log ev : List (SysEvent ι W)}

/-- Every producer has done what its place says. -/
def ProducersOk (jobs : ι → Job) (s : System ι C W M) (log : List (SysEvent ι W)) : Prop :=
  ∀ j, ProducerOk (jobs j).n (encodings j log) (pushes j log) (s.producer j).scratch
    (s.ring.push j) (s.producer j).pc

omit [DecidableEq W] in
theorem ProducersOk.relay (h : ProducersOk jobs s log) (hring : s'.ring.push = s.ring.push)
    (hprod : ∀ k, (s'.producer k).pc = (s.producer k).pc ∧
      (s'.producer k).scratch = (s.producer k).scratch)
    (hev : ∀ k, encodings k ev = [] ∧ pushes k ev = []) : ProducersOk jobs s' (log ++ ev) := by
  intro k
  rw [encodings_append, pushes_append, hring, (hprod k).1, (hprod k).2]
  exact (h k).quiet _ (hev k).1 (hev k).2

theorem ProducersOk.step (h : ProducersOk jobs s log) {a : SysAction ι}
    (hs : sysStep cfg codec mm jobs s a = some (s', ev)) : ProducersOk jobs s' (log ++ ev) := by
  have hupdate {j : ι} {p : Producer C W} (hpc : p.pc = (s.producer j).pc)
      (hscratch : p.scratch = (s.producer j).scratch) (k : ι) :
      (Function.update s.producer j p k).pc = (s.producer k).pc ∧
        (Function.update s.producer j p k).scratch = (s.producer k).scratch := by
    by_cases hk : k = j
    · subst hk
      simp [hpc, hscratch]
    · simp [hk]
  cases sysTrans_of_step hs with
  | @producer j now spurious p push m _ ht =>
    intro k
    rw [encodings_append, pushes_append]
    by_cases hk : k = j
    · subst hk
      simpa [System.setProducer] using (h k).step ht
    · simpa [System.setProducer, hk] using (h k).quiet _ (ht.others hk).1 (ht.others hk).2
  | @send j p hp =>
    cases hp
    exact h.relay rfl (hupdate rfl rfl) fun _ => ⟨rfl, rfl⟩
  | @serve j p token calls _ hp =>
    cases hp <;> exact h.relay rfl (hupdate rfl rfl) fun _ => ⟨rfl, rfl⟩
  | @drop j _ =>
    exact h.relay rfl (hupdate rfl rfl) fun _ => ⟨rfl, rfl⟩
  | @consumer c pop m _ ht =>
    exact h.relay rfl (fun _ => ⟨rfl, rfl⟩) fun k => ht.quiet k
  | @commit t m _ =>
    exact h.relay rfl (fun _ => ⟨rfl, rfl⟩) fun _ => ⟨rfl, rfl⟩
  | stop =>
    exact h.relay rfl (fun _ => ⟨rfl, rfl⟩) fun _ => ⟨rfl, rfl⟩

omit [DecidableEq W] in
theorem producersOk_start (m : M) :
    ProducersOk jobs (System.start cfg codec m : System ι C W M) [] :=
  fun _ => ⟨Nat.zero_le _, rfl, rfl⟩

end System

/-! ### The consumer -/

/-- `decode_into` on one message, as the consumer goes on from it. -/
def decodeNext (codec : Codec C) (st : C × DecodedEvent) (raw : List UInt8) : C × DecodedEvent :=
  let r := codec.decodeInto st.1 raw st.2
  (r.1, r.2.1)

/-- The events of the messages for which `decode_into` returned `Ok`, in order. -/
def decodes (codec : Codec C) : C × DecodedEvent → List (List UInt8) → List DecodedEvent
  | _, [] => []
  | st, raw :: raws =>
    let r := codec.decodeInto st.1 raw st.2
    (if r.2.2 then [r.2.1] else []) ++ decodes codec (decodeNext codec st raw) raws

theorem decodes_append (codec : Codec C) (raws raws' : List (List UInt8)) (st : C × DecodedEvent) :
    decodes codec st (raws ++ raws') =
      decodes codec st raws ++ decodes codec (raws.foldl (decodeNext codec) st) raws' := by
  induction raws generalizing st with
  | nil => rfl
  | cons raw raws ih => simp [decodes, ih]

def wireTotal (raws : List (List UInt8)) : Nat := (raws.map List.length).sum

/-- The payload bytes of exactly the messages that decoded. -/
def payloadTotal (cfg : RingConfig) (codec : Codec C) (raws : List (List UInt8)) : Nat :=
  ((decodes codec (codec.new cfg, .empty) raws).map fun e => e.payload.length).sum

/-- The messages of each list are in the counter of that name. -/
structure Books (cfg : RingConfig) (codec : Codec C) (events wire payload : List (List UInt8))
    (c : Consumer C) : Prop where
  events : c.stats.events = UInt64.ofNat events.length
  wireBytes : c.stats.wireBytes = UInt64.ofNat (wireTotal wire)
  payloadBytes : c.stats.payloadBytes = UInt64.ofNat (payloadTotal cfg codec payload)
  state : (c.codec, c.decoded) = payload.foldl (decodeNext codec) (codec.new cfg, .empty)

/-- The consumer has popped a message that its statistics do not fully show. -/
def ConsumerPc.accounting : ConsumerPc → Bool
  | .storeRunningHit | .addEvents _ | .addWire _ | .decode _ => true
  | _ => false

theorem ConsumerPc.accounting_of_inPop {pc : ConsumerPc} (h : pc.inPop = true) :
    pc.accounting = false := by
  cases pc <;> first | rfl | cases h

/-- What the consumer has counted of the messages `raws`, by where it stands. -/
def ConsumerOk (cfg : RingConfig) (codec : Codec C) (raws : List (List UInt8)) (c : Consumer C) :
    ConsumerPc → Prop
  | .storeRunningHit | .addEvents _ =>
    ∃ raws', raws = raws' ++ [c.buf] ∧ Books cfg codec raws' raws' raws' c
  | .addWire _ => ∃ raws', raws = raws' ++ [c.buf] ∧ Books cfg codec raws raws' raws' c
  | .decode _ => ∃ raws', raws = raws' ++ [c.buf] ∧ Books cfg codec raws raws raws' c
  | _ => Books cfg codec raws raws raws c

section Consumer

variable {cfg : RingConfig} {codec : Codec C} {raws raws' : List (List UInt8)} {c c' : Consumer C}

theorem ConsumerOk.books {pc : ConsumerPc} (h : ConsumerOk cfg codec raws c pc)
    (hpc : pc.accounting = false) : Books cfg codec raws raws raws c := by
  cases pc <;> first | exact h | cases hpc

theorem Books.settled {ev wire pay : List (List UInt8)} (h : Books cfg codec ev wire pay c)
    (hstats : c'.stats = c.stats) (hcodec : c'.codec = c.codec)
    (hdecoded : c'.decoded = c.decoded) :
    Books cfg codec ev wire pay c' :=
  ⟨hstats ▸ h.events, hstats ▸ h.wireBytes, hstats ▸ h.payloadBytes, by
    rw [hcodec, hdecoded]; exact h.state⟩

theorem ConsumerOk.of_books {pc : ConsumerPc} (h : Books cfg codec raws raws raws c)
    (hpc : pc.accounting = false) : ConsumerOk cfg codec raws c pc := by
  cases pc <;> first | exact h | cases hpc

theorem Books.decode (h : Books cfg codec raws raws raws' c) (hraws : raws = raws' ++ [c.buf]) :
    Books cfg codec raws raws raws (c.decode codec) := by
  have hst := h.state
  refine ⟨h.events, h.wireBytes, ?_, ?_⟩
  · have hdec : decodes codec (codec.new cfg, .empty) raws =
        decodes codec (codec.new cfg, .empty) raws' ++
          if (codec.decodeInto c.codec c.buf c.decoded).2.2
          then [(codec.decodeInto c.codec c.buf c.decoded).2.1] else [] := by
      rw [hraws, decodes_append, ← hst]
      simp [decodes]
    have hpay := h.payloadBytes
    simp only [Consumer.decode, payloadTotal, hdec, hpay]
    split <;> simp
  · rw [hraws, List.foldl_append, ← hst]
    rfl

theorem PopTrans.popped {ops : SegOps W M} {pop pop' : PopPc W} {m m' : M} {pev : List (PopEvent W)}
    (h : PopTrans ops pop m pop' m' pev) :
    (∃ head out, pop' = .done (some head) out ∧
        popped (pev.map fun e => (.ring (.pop e) : SysEvent ι W)) = [out]) ∨
      (∀ head out, pop' ≠ .done (some head) out) ∧
        popped (pev.map fun e => (.ring (.pop e) : SysEvent ι W)) = [] := by
  cases h with
  | storeHead => exact .inl ⟨_, _, rfl, rfl⟩
  | _ => exact .inr ⟨fun _ _ h => (by cases h), rfl⟩

theorem popped_append {log ev : List (SysEvent ι W)} :
    popped (log ++ ev) = popped log ++ popped ev := by
  simp [popped]

theorem ConsumerOk.pop {ops : SegOps W M} {pop pop' : PopPc W} {m m' : M}
    {pev : List (PopEvent W)} (h : Books cfg codec raws raws raws c) (hc : c.pc.inPop = true)
    (hr : PopTrans ops pop m pop' m' pev) {hit miss : ConsumerPc} (hhit : hit = .storeRunningHit ∨
      ∃ site, hit = .addEvents site) (hmiss : miss.accounting = false) :
    ConsumerOk cfg codec (raws ++ popped (pev.map fun e => (.ring (.pop e) : SysEvent ι W)))
      (afterPop hit miss c pop') (afterPop hit miss c pop').pc := by
  rcases hr.popped (ι := ι) with ⟨head, out, rfl, hp⟩ | ⟨hne, hp⟩
  · rw [hp]
    rcases hhit with rfl | ⟨site, rfl⟩
    · exact ⟨raws, rfl, h.settled rfl rfl rfl⟩
    · exact ⟨raws, rfl, h.settled rfl rfl rfl⟩
  · rw [hp, List.append_nil]
    unfold afterPop
    split
    · exact absurd rfl (hne _ _)
    · exact .of_books (h.settled rfl rfl rfl) hmiss
    · exact .of_books h (ConsumerPc.accounting_of_inPop hc)

theorem ConsumerOk.step {ops : SegOps W M} {stop : Bool} {pop pop' : PopPc W} {m m' : M}
    {log ev : List (SysEvent ι W)} (h : ConsumerOk cfg codec (popped log) c c.pc)
    (ht : ConsumerTrans ι codec ops stop c pop m c' pop' m' ev) :
    ConsumerOk cfg codec (popped (log ++ ev)) c' c'.pc := by
  rw [popped_append]
  have hstay {pc : ConsumerPc} {ev : List (SysEvent ι W)} (hev : popped ev = [])
      (hb : Books cfg codec (popped log) (popped log) (popped log) c)
      (hacc : pc.accounting = false) :
      ConsumerOk cfg codec (popped log ++ popped ev) { c with pc := pc } pc := by
    rw [hev, List.append_nil]
    exact .of_books (hb.settled rfl rfl rfl) hacc
  cases ht with
  | drain hpc hr =>
    rw [hpc] at h
    exact ConsumerOk.pop (h.books rfl) (by rw [hpc]; rfl) hr (.inr ⟨_, rfl⟩) (by split <;> rfl)
  | recheck hpc hr =>
    rw [hpc] at h
    exact ConsumerOk.pop (h.books rfl) (by rw [hpc]; rfl) hr (.inl rfl) rfl
  | storeRunningHit hpc =>
    rw [hpc] at h
    obtain ⟨raws', hraws, hb⟩ := h
    exact ⟨raws', by simpa [popped, ringLog, pops] using hraws, hb.settled rfl rfl rfl⟩
  | addEvents hpc =>
    rw [hpc] at h
    obtain ⟨raws', hraws, hb⟩ := h
    have hnil : popped ([] : List (SysEvent ι W)) = [] := rfl
    rw [hnil, List.append_nil, hraws]
    refine ⟨raws', rfl, ?_, hb.wireBytes, hb.payloadBytes, hb.state⟩
    simp [hb.events]
  | addWire hpc =>
    rw [hpc] at h
    obtain ⟨raws', hraws, hb⟩ := h
    have hnil : popped ([] : List (SysEvent ι W)) = [] := rfl
    rw [hnil, List.append_nil]
    refine ⟨raws', hraws, hb.events, ?_, hb.payloadBytes, hb.state⟩
    simp [hb.wireBytes, hraws, wireTotal]
  | decodeDrain hpc =>
    rw [hpc] at h
    obtain ⟨raws', hraws, hb⟩ := h
    have hnil : popped ([.ring (.popCall c.buf)] : List (SysEvent ι W)) = [] := rfl
    rw [hnil, List.append_nil]
    exact (hb.decode hraws).settled rfl rfl rfl
  | decodeRecheck hpc =>
    rw [hpc] at h
    obtain ⟨raws', hraws, hb⟩ := h
    have hnil : popped ([] : List (SysEvent ι W)) = [] := rfl
    rw [hnil, List.append_nil]
    exact (hb.decode hraws).settled rfl rfl rfl
  | halt hpc => exact hstay rfl (h.books (by rw [hpc]; rfl)) rfl
  | top hpc => exact hstay rfl (h.books (by rw [hpc]; rfl)) rfl
  | storeParked hpc => exact hstay rfl (h.books (by rw [hpc]; rfl)) rfl
  | unparked hpc => exact hstay rfl (h.books (by rw [hpc]; rfl)) rfl
  | storeRunning hpc => exact hstay rfl (h.books (by rw [hpc]; rfl)) rfl

end Consumer

/-! ### The whole system -/

section Runs

variable [DecidableEq ι] {cfg : RingConfig} {codec : Codec C} {jobs : ι → Job} {b : Nat}
  {as : List (SysAction ι)} {s s' : System ι C UInt64 Memory} {log ev : List (SysEvent ι UInt64)}

/-- What the loops alone guarantee. -/
structure LoopsOk (cfg : RingConfig) (codec : Codec C) (jobs : ι → Job)
    (s : System ι C UInt64 Memory) (log : List (SysEvent ι UInt64)) : Prop where
  calls : InCalls s
  producers : ProducersOk jobs s log
  consumer : ConsumerOk cfg codec (popped log) s.consumer s.consumer.pc

omit [DecidableEq ι] in
theorem ProducerTrans.popped {ops : SegOps W M} {job : Job} {j : ι} {now : UInt64} {spurious : Bool}
    {p p' : Producer C W} {push push' : PushPc W} {m m' : M} {ev : List (SysEvent ι W)}
    (ht : ProducerTrans cfg codec ops job j now spurious p push m p' push' m' ev) :
    popped ev = [] := by
  cases ht with
  | push => simp [ShmMpsc.popped, pops, List.filterMap_map]
  | _ => rfl

theorem LoopsOk.step (h : LoopsOk cfg codec jobs s log) {a : SysAction ι}
    (hs : sysStep cfg codec (sc (segOps cfg)) jobs s a = some (s', ev)) :
    LoopsOk cfg codec jobs s' (log ++ ev) := by
  refine ⟨h.calls.step hs, h.producers.step hs, ?_⟩
  have hkeep (hev : popped ev = []) (hc : s'.consumer = s.consumer) :
      ConsumerOk cfg codec (popped (log ++ ev)) s'.consumer s'.consumer.pc := by
    rw [popped_append, hev, List.append_nil, hc]
    exact h.consumer
  cases sysTrans_of_step hs with
  | @producer j now spurious p push m _ ht =>
    exact hkeep ht.popped rfl
  | @send j p _ =>
    exact hkeep rfl rfl
  | @serve j p token calls _ hp =>
    refine hkeep ?_ rfl
    cases hp <;> rfl
  | @drop j _ =>
    exact hkeep rfl rfl
  | @consumer c pop m _ ht =>
    exact h.consumer.step ht
  | commit hm => cases hm
  | stop =>
    exact hkeep rfl rfl

theorem loopsOk_start (m : Memory) : LoopsOk cfg codec jobs (System.start cfg codec m) [] :=
  ⟨inCalls_start m, producersOk_start m, rfl, rfl, rfl, rfl⟩

theorem ScRun.loopsOk {G} (h : ScRun cfg codec jobs G as s log) : LoopsOk cfg codec jobs s log := by
  obtain ⟨m, m', _, _, hrun⟩ := h
  exact hrun.invariant (loopsOk_start m') fun _ _ _ _ _ hI _ hs => hI.step hs

/-- A run of the system is a run of the ring. -/
theorem ScRun.initRun (h : ScRun cfg codec jobs (sysWindowed b) as s log) :
    ∃ bs, InitRun cfg (windowed b) bs s.ring (ringLog log) := by
  obtain ⟨m, m', hm, hi, hrun⟩ := h
  have hstep : ∀ s log t tlog a s' ev, (t = s.ring ∧ tlog = ringLog log ∧ InCalls s) →
      sysWindowed b s log a → sysStep cfg codec (sc (segOps cfg)) jobs s a = some (s', ev) →
      ∃ bs t' tlog', (ringMachine ι (segOps cfg)).Run (windowed b) t tlog bs t' tlog' ∧
        t' = s'.ring ∧ tlog' = ringLog (log ++ ev) ∧ InCalls s' := by
    rintro s log _ _ a s' ev ⟨rfl, rfl, hI⟩ hw hs
    obtain ⟨bs, hb⟩ := ring_step hI hw hs
    exact ⟨bs, _, _, hb, rfl, rfl, hI.step hs⟩
  obtain ⟨bs, t, tlog, hring, rfl, rfl, _⟩ := hrun.simulate ⟨rfl, rfl, inCalls_start m'⟩ hstep
  exact ⟨bs, m, m', hm, hi, hring⟩

end Runs

end ShmMpsc
