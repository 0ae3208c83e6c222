import ShmMpsc.Formats.Framing
import ShmMpsc.System.Events
import ShmMpsc.System.Payload
import ShmMpsc.System.Report

/-!
# The scenarios

The benches that `main` runs: sizes by codecs, each measured after a warm-up. The events of a
scenario fit its slots in every format, so that no producer fails, and what the report says of
the bytes is said of the payloads that were sent.
-/

namespace ShmMpsc

set_option autoImplicit false

open RingConfig

inductive SizeName where
  | small
  | medium
  | large
  | huge
  deriving DecidableEq, Repr

structure Scenario where
  name : String
  cfg : RingConfig
  payloadSize : Nat
  eventsPerProducer : UInt64

def SCENARIOS : List Scenario := [
  { name := "small", cfg := Presets.SMALL, payloadSize := 64, eventsPerProducer := 500000 },
  { name := "medium", cfg := Presets.MEDIUM, payloadSize := 1024, eventsPerProducer := 200000 },
  { name := "large", cfg := Presets.LARGE, payloadSize := 16 * 1024, eventsPerProducer := 50000 },
  { name := "huge", cfg := Presets.HUGE, payloadSize := 1024 * 1024, eventsPerProducer := 1500 }]

def SizeName.key : SizeName → String
  | .small => "small"
  | .medium => "medium"
  | .large => "large"
  | .huge => "huge"

/-- `none` is the panic of `unwrap`. -/
def pickScenario (s : SizeName) : Option Scenario := SCENARIOS.find? fun sc => sc.name = s.key

/-- What `main` calls `run_one` with, the number of producers apart. -/
structure BenchCall where
  codec : CodecKind
  scenario : Scenario
  events : UInt64

/-- `warmup_events` -/
def Scenario.warmupEvents (sc : Scenario) : UInt64 := max (sc.eventsPerProducer / 10) 200

/-- The loop over `codecs`. -/
def Scenario.calls (sc : Scenario) (noWarmup : Bool) (codecs : List CodecKind) : List BenchCall :=
  codecs.flatMap fun codec =>
    (if noWarmup then [] else [⟨codec, sc, sc.warmupEvents⟩]) ++ [⟨codec, sc, sc.eventsPerProducer⟩]

/-- The calls of `run_one`, in order, as long as none fails. -/
def benchCalls (noWarmup : Bool) (sizes : List SizeName) (codecs : List CodecKind) :
    Option (List BenchCall) :=
  match sizes with
  | [] => some []
  | size :: sizes => do
    let sc ← pickScenario size
    let calls ← benchCalls noWarmup sizes codecs
    return sc.calls noWarmup codecs ++ calls

/-! ### Room for the events -/

/-- Slots with room for the payload and for what a format adds to it. -/
structure Scenario.Ample (sc : Scenario) : Prop where
  check : sc.cfg.check = .ok ()
  slots : 2 ≤ sc.cfg.N ∧ sc.cfg.N ≤ 1024
  least : 512 ≤ sc.cfg.slotSize.toNat
  most : sc.cfg.slotSize.toNat ≤ 2 * 1024 * 1024
  room : sc.payloadSize + 200 ≤ sc.cfg.slotSize.toNat
  events : 200 ≤ sc.eventsPerProducer.toNat

theorem scenarios_ample : ∀ sc ∈ SCENARIOS, sc.Ample := by
  have hall : ∀ sc ∈ SCENARIOS, sc.cfg.check = .ok () ∧ (2 ≤ sc.cfg.N ∧ sc.cfg.N ≤ 1024) ∧
      512 ≤ sc.cfg.slotSize.toNat ∧ sc.cfg.slotSize.toNat ≤ 2 * 1024 * 1024 ∧
      sc.payloadSize + 200 ≤ sc.cfg.slotSize.toNat ∧ 200 ≤ sc.eventsPerProducer.toNat := by decide
  intro sc hsc
  obtain ⟨hcheck, hslots, hleast, hmost, hroom, hevents⟩ := hall sc hsc
  exact ⟨hcheck, hslots, hleast, hmost, hroom, hevents⟩

/-- Every size has its scenario. -/
theorem pickScenario_mem (s : SizeName) :
    ∃ sc ∈ SCENARIOS, pickScenario s = some sc ∧ sc.name = s.key := by
  have hsome : (pickScenario s).isSome := by
    cases s <;> decide
  obtain ⟨sc, hsc⟩ := Option.isSome_iff_exists.mp hsome
  exact ⟨sc, List.mem_of_find?_eq_some hsc, hsc, by simpa using List.find?_some hsc⟩

theorem warmupEvents_ge (sc : Scenario) : 200 ≤ sc.warmupEvents.toNat := by
  show 200 ≤ (if sc.eventsPerProducer / 10 ≤ 200 then 200 else sc.eventsPerProducer / 10).toNat
  split
  · decide
  · rename_i hle
    have hlt := UInt64.lt_iff_toNat_lt.mp (UInt64.not_le.mp hle)
    exact Nat.le_of_lt hlt

theorem benchCalls_mem {noWarmup : Bool} {sizes : List SizeName} {codecs : List CodecKind}
    {calls : List BenchCall} (h : benchCalls noWarmup sizes codecs = some calls) :
    ∀ call ∈ calls, call.scenario.Ample ∧ 200 ≤ call.events.toNat := by
  induction sizes generalizing calls with
  | nil =>
    obtain rfl := Option.some.inj h
    exact fun call hcall => absurd hcall List.not_mem_nil
  | cons size sizes ih =>
    obtain ⟨sc, hsc, hpick, _⟩ := pickScenario_mem size
    have hample := scenarios_ample sc hsc
    simp only [benchCalls, hpick, Option.bind_eq_bind, Option.bind_some,
      Option.bind_eq_some_iff] at h
    obtain ⟨rest, hrest, h⟩ := h
    obtain rfl := Option.some.inj h
    intro call hcall
    rcases List.mem_append.mp hcall with hcall | hcall
    · obtain ⟨codec, _, hcall⟩ := List.mem_flatMap.mp hcall
      rcases List.mem_append.mp hcall with hcall | hcall
      · split at hcall
        · cases hcall
        · obtain rfl := List.mem_singleton.mp hcall
          exact ⟨hample, warmupEvents_ge sc⟩
      · obtain rfl := List.mem_singleton.mp hcall
        exact ⟨hample, hample.events⟩
    · exact ih hrest call hcall

theorem benchCalls_isSome (noWarmup : Bool) (sizes : List SizeName) (codecs : List CodecKind) :
    (benchCalls noWarmup sizes codecs).isSome := by
  induction sizes with
  | nil => rfl
  | cons size sizes ih =>
    obtain ⟨sc, _, hpick, _⟩ := pickScenario_mem size
    obtain ⟨calls, hcalls⟩ := Option.isSome_iff_exists.mp ih
    simp [benchCalls, hpick, hcalls]

/-! ### The events -/

section Jobs

variable {n : Nat} {events : UInt64} {payload : List UInt8}

theorem benchName_toList (j : Fin n) :
    (benchJobs n events payload j).name.toList = 'p' :: Nat.toDigits 10 j.val := by
  simp [benchJobs, toString, Nat.repr]

theorem benchName_ascii (j : Fin n) :
    ∀ c ∈ (benchJobs n events payload j).name.toList, 48 ≤ c.toNat ∧ c.toNat < 128 ∧ c ≠ '\\' := by
  intro c hc
  rw [benchName_toList, List.mem_cons] at hc
  rcases hc with rfl | hc
  · decide
  · have hdigit : c.isDigit = true := Nat.isDigit_of_mem_toDigits (by decide) (by decide) hc
    have hrange : 48 ≤ c.toNat ∧ c.toNat ≤ 57 := by
      simpa [Char.isDigit, UInt32.le_iff_toNat_le] using hdigit
    refine ⟨hrange.1, by omega, ?_⟩
    rintro rfl
    exact absurd hrange.2 (by decide)

theorem benchName_plain (j : Fin n) : Plain (benchJobs n events payload j).name := by
  intro c hc
  obtain ⟨hlow, _, hslash⟩ := benchName_ascii j c hc
  have hquote : c ≠ '"' := by
    rintro rfl
    exact absurd hlow (by decide)
  have hcontrol : ¬ c.toNat < 32 := by omega
  simp [mustEscape, hquote, hslash, hcontrol]

theorem benchName_length (hn : n < 10 ^ 19) (j : Fin n) :
    (utf8 (benchJobs n events payload j).name).length ≤ 20 := by
  have hdigits := Nat.toDigits_length 10 j.val 19 (by decide) (j.isLt.trans hn)
  rw [utf8_eq_flatMap, ← bytesOf, bytesOf_ascii fun c hc => (benchName_ascii j c hc).2.1,
    benchName_toList, List.length_cons]
  omega

/-- The events of a bench have room in the slots of its scenario. -/
theorem bench_roomy {sc : Scenario} (h : sc.Ample)
    (hpayload : genBase64Blob sc.payloadSize = some payload) (hn : n < 10 ^ 19) (j : Fin n)
    (i now : UInt64) :
    Roomy sc.cfg ((benchJobs n events payload j).event i now) := by
  obtain ⟨blob, hgen, hlen, hletters, _⟩ := genBase64Blob_spec sc.payloadSize
  obtain rfl := Option.some.inj (hpayload.symm.trans hgen)
  have hplain : Plain (benchJobs n events payload j).name := benchName_plain j
  have hname : (utf8 (benchJobs n events payload j).name).length ≤ 20 := benchName_length hn j
  have hroom := h.room
  refine ⟨⟨hplain, plain_of_letters hletters⟩, ?_, h.most⟩
  simp only [Job.event, benchJobs, framing] at hname ⊢
  omega

end Jobs

/-! ### The bytes -/

section Bytes

variable {C : Type} {codec : Codec C} {cfg : RingConfig} {size extra : Nat}
  {raws : List (List UInt8)}

/-- A message with a payload of `size` bytes, and with at most `extra` bytes more. -/
structure Carries (cfg : RingConfig) (codec : Codec C) (size extra : Nat) (raw : List UInt8) :
    Prop where
  decodable : codec.Decodable cfg raw
  payload : (codec.eventOf cfg raw).payload.length = size
  least : size ≤ raw.length
  most : raw.length ≤ size + extra

theorem wireTotal_bounds (h : ∀ raw ∈ raws, Carries cfg codec size extra raw) :
    raws.length * size ≤ wireTotal raws ∧ wireTotal raws ≤ raws.length * (size + extra) := by
  induction raws with
  | nil => simp [wireTotal]
  | cons raw raws ih =>
    obtain ⟨hraw, hraws⟩ := List.forall_mem_cons.mp h
    obtain ⟨hleast, hmost⟩ := ih hraws
    have h1 := hraw.least
    have h2 := hraw.most
    rw [wireTotal, List.map_cons, List.sum_cons, ← wireTotal, List.length_cons,
      Nat.add_mul, Nat.add_mul]
    omega

theorem payloadTotal_eq (h : ∀ raw ∈ raws, Carries cfg codec size extra raw) :
    payloadTotal cfg codec raws = raws.length * size := by
  have hdecodes :=
    decodes_eq_map (fun raw hraw => (h raw hraw).decodable) (codec.new cfg, .empty) .new
  have hsizes : (raws.map (codec.eventOf cfg)).map (fun e => e.payload.length) =
      List.replicate raws.length size := by
    rw [List.map_map, List.eq_replicate_iff]
    refine ⟨List.length_map .., fun len hlen => ?_⟩
    obtain ⟨raw, hraw, rfl⟩ := List.mem_map.mp hlen
    exact (h raw hraw).payload
  rw [payloadTotal, hdecodes, hsizes, List.sum_replicate_nat]

/-- The counters of so many messages, or of all but the last of them. -/
theorem near_totals (h : ∀ raw ∈ raws, Carries cfg codec size extra raw)
    (hbytes : raws.length * (size + extra) < 2 ^ 64) {wire payload : UInt64}
    (hwire : Near wireTotal raws wire) (hpayload : Near (payloadTotal cfg codec) raws payload) :
    (payload.toNat = raws.length * size ∨ payload.toNat = (raws.length - 1) * size) ∧
      (raws.length - 1) * size ≤ wire.toNat ∧ wire.toNat ≤ raws.length * (size + extra) := by
  have hinit : ∀ raw ∈ raws.dropLast, Carries cfg codec size extra raw :=
    fun raw hraw => h raw (List.mem_of_mem_dropLast hraw)
  obtain ⟨hl, hm⟩ := wireTotal_bounds h
  obtain ⟨hl', hm'⟩ := wireTotal_bounds hinit
  have hp := payloadTotal_eq h
  have hp' := payloadTotal_eq hinit
  rw [List.length_dropLast] at hl' hm' hp'
  have hsub : (raws.length - 1) * size ≤ raws.length * size :=
    Nat.mul_le_mul_right _ (Nat.sub_le _ _)
  have hsub' : (raws.length - 1) * (size + extra) ≤ raws.length * (size + extra) :=
    Nat.mul_le_mul_right _ (Nat.sub_le _ _)
  have hmod {k : Nat} (hk : k ≤ raws.length * (size + extra)) : (UInt64.ofNat k).toNat = k := by
    rw [UInt64.toNat_ofNat', Nat.mod_eq_of_lt (by omega)]
  refine ⟨?_, ?_⟩
  · rcases hpayload with rfl | rfl
    · exact .inl (by rw [hmod (by omega), hp])
    · exact .inr (by rw [hmod (by omega), hp'])
  · rcases hwire with rfl | rfl
    · rw [hmod hm]
      omega
    · rw [hmod (by omega)]
      omega

end Bytes

/-! ### Every bench -/

/-- The numbers of a report on events with payloads of `size` bytes. -/
structure Measured (n : Nat) (events : UInt64) (size : Nat) (r : BenchReport) : Prop where
  producers : r.producers = n
  eventsPerProducer : r.eventsPerProducer = events
  payloadBytes : r.payloadBytes.toNat = n * events.toNat * size ∨
    r.payloadBytes.toNat = (n * events.toNat - 1) * size
  wireBytes : (n * events.toNat - 1) * size ≤ r.wireBytes.toNat ∧
    r.wireBytes.toNat ≤ n * events.toNat * (size + 180)
  events : r.events.toNat = n * events.toNat

section Benches

variable {n : Nat} {libs : Libraries} {payload : List UInt8} {call : BenchCall}

/-- Fewer bytes than a `u64` counts in all the slots that the events take. -/
theorem benchCall_bounds (hample : call.scenario.Ample) (hevents : 200 ≤ call.events.toNat)
    (hbytes : n * call.events.toNat * call.scenario.cfg.slotSize.toNat < 2 ^ 64) :
    n * call.events.toNat < 2 ^ 63 - call.scenario.cfg.N ∧ n < 10 ^ 19 ∧
      n * call.events.toNat * (call.scenario.payloadSize + 180) < 2 ^ 64 := by
  have hleast := hample.least
  have hslots := hample.slots
  have hroom := hample.room
  have h512 : n * call.events.toNat * 512 ≤
      n * call.events.toNat * call.scenario.cfg.slotSize.toNat :=
    Nat.mul_le_mul_left _ hleast
  have h200 : n * 200 ≤ n * call.events.toNat := Nat.mul_le_mul_left _ hevents
  have hsize : n * call.events.toNat * (call.scenario.payloadSize + 180) ≤
      n * call.events.toNat * call.scenario.cfg.slotSize.toNat := Nat.mul_le_mul_left _ (by omega)
  omega

variable (hdoc : libs.Documented) (hjson : libs.serdeJson.Documented) (hcompact : libs.Compact)
  (hample : call.scenario.Ample) (hpayload : genBase64Blob call.scenario.payloadSize = some payload)

section Codecs

variable (hn : n < 10 ^ 19)

include hdoc hcompact hample hpayload hn

theorem bench_sendable (j : Fin n) :
    Sendable call.scenario.cfg (libs.codec call.codec) (benchJobs n call.events payload j) := by
  intro c i now hc _
  have hroomy : Roomy call.scenario.cfg ((benchJobs n call.events payload j).event i now) :=
    bench_roomy hample hpayload hn j i now
  obtain ⟨c', bytes, henc, _, hmost⟩ := hcompact.encode hdoc hroomy hc
  refine ⟨c', bytes, henc, ?_⟩
  have hroom := hroomy.room
  rw [maxLen_toNat (check_iff.mp hample.check).min]
  omega

/-- What a producer of the bench makes has the length of its payload, and little more. -/
theorem bench_made {j : Fin n} {r : DecodedEvent × List UInt8} {i now : UInt64}
    (hcrafted : Crafted call.scenario.cfg (libs.codec call.codec) r)
    (hevent : r.1 = (benchJobs n call.events payload j).event i now) :
    r.1.payload.length = call.scenario.payloadSize ∧ call.scenario.payloadSize ≤ r.2.length ∧
      r.2.length ≤ call.scenario.payloadSize + 180 := by
  obtain ⟨c, c', hc, henc⟩ := hcrafted
  have hroomy : Roomy call.scenario.cfg ((benchJobs n call.events payload j).event i now) :=
    bench_roomy hample hpayload hn j i now
  rw [← hevent] at hroomy
  obtain ⟨c'', bytes, henc', hleast, hmost⟩ := hcompact.encode hdoc hroomy hc
  rw [henc] at henc'
  obtain ⟨-, rfl⟩ := Prod.mk.inj (Except.ok.inj henc')
  have hlen : r.1.payload.length = call.scenario.payloadSize := by
    obtain ⟨blob, hgen, hlen, _⟩ := genBase64Blob_spec call.scenario.payloadSize
    obtain rfl := Option.some.inj (hpayload.symm.trans hgen)
    rw [hevent]
    exact hlen
  have hname : (utf8 (benchJobs n call.events payload j).name).length ≤ 20 := benchName_length hn j
  have hsource : r.1.source = (benchJobs n call.events payload j).name := by
    rw [hevent]
    rfl
  rw [framing, hsource] at hmost
  exact ⟨hlen, by omega, by omega⟩

end Codecs

variable {b : Bench n (libs.State call.codec)} {log : List (SysEvent (Fin n) UInt64)}
  {as : List (BenchAction n)}

/-- What holds in every state of a bench: nobody fails, what was sent arrives, and the messages have
the size of the payload. -/
structure Going (n : Nat) (libs : Libraries) (call : BenchCall) (payload : List UInt8)
    (b : Bench n (libs.State call.codec)) (log : List (SysEvent (Fin n) UInt64)) : Prop where
  producers : ∀ j e, (b.sys.producer j).pc ≠ .failed e
  bench : ∀ e, b.pc ≠ .failed e
  arrived : Arrived call.scenario.cfg (libs.codec call.codec)
    (benchJobs n call.events payload) b.sys log
  sized : ∀ raw ∈ popped log,
    Carries call.scenario.cfg (libs.codec call.codec) call.scenario.payloadSize 180 raw
  report : ∀ r, b.pc = .done r → Measured n call.events call.scenario.payloadSize r

include hdoc hjson hcompact hpayload

include hample in
theorem bench_going (hevents : 200 ≤ call.events.toNat)
    (hbytes : n * call.events.toNat * call.scenario.cfg.slotSize.toNat < 2 ^ 64)
    (h : BenchRun call.scenario.cfg (libs.codec call.codec) call.events payload as b log) :
    Going n libs call payload b log := by
  obtain ⟨hsum, hn, hcount⟩ := benchCall_bounds hample hevents hbytes
  have hN := hample.slots.1
  have hsize : call.scenario.cfg.slotSize.toNat < 2 ^ 32 := by
    have hmost := hample.most
    omega
  have hsum' : ∑ j, (benchJobs n call.events payload j).n.toNat < 2 ^ 63 - call.scenario.cfg.N := by
    rwa [sum_benchJobs]
  obtain ⟨hw, hok⟩ := h.ok hN hsum
  obtain ⟨bs, hlate⟩ := h.late hN hsum
  have hsound := hlate.sound hN hsum' (bench_sendable hdoc hcompact hample hpayload hn)
  have hfailed (j : Fin n) (e : String) : (b.sys.producer j).pc ≠ .failed e := by
    intro hpc
    have hrun := (hsound.unfailing j).running
    rw [hpc] at hrun
    cases hrun
  have htakes (j : Fin n) (i now : UInt64) : (libs.codec call.codec).TakesOut call.scenario.cfg
      ((benchJobs n call.events payload j).event i now) :=
    Libraries.takesOut hdoc hjson hample.check hample.most fun _ =>
      (bench_roomy hample hpayload hn j i now).clear
  obtain ⟨cs, hfree⟩ := h.scRun
  have hmade := hfree.madeOk
  have hsized (raw : List UInt8) (hraw : raw ∈ popped log) :
      Carries call.scenario.cfg (libs.codec call.codec) call.scenario.payloadSize 180 raw := by
    obtain ⟨u, ulog, hR⟩ := hw.ring
    obtain ⟨hdec, j, hmem⟩ :=
      popped_decodable (check_iff.mp hample.check) hsize htakes hR hw.loops hmade hraw
    obtain ⟨i, now, hevent⟩ := made_event hmem
    obtain ⟨hpay, hleast, hmost⟩ :=
      bench_made hdoc hcompact hample hpayload hn (hmade.crafted j _ hmem) hevent
    exact ⟨hdec, hpay, hleast, hmost⟩
  refine ⟨hfailed, fun e hpc => ?_, (hfree.windowed_of_total hsum').arrived hN hsize htakes, hsized,
    fun r hpc => ?_⟩
  · rw [hpc] at hok
    obtain ⟨j, hj⟩ := hok
    exact hfailed j e hj
  · rw [hpc] at hok
    obtain ⟨hall, hrep⟩ := hok
    have hlen := hall.popped
    rw [sum_benchJobs] at hlen
    obtain ⟨hpay, hwire⟩ := near_totals hsized (by rwa [hlen]) hrep.wireBytes hrep.payloadBytes
    rw [hlen] at hpay hwire
    exact ⟨hrep.producers, hrep.eventsPerProducer, hpay, hwire, hrep.events⟩

/-- In every interleaving of every bench that `main` runs: no producer fails and so neither does
`run_inner`, what arrives is what was sent, and the bytes counted are those of the payloads with no
more than 180 for each event, in the report too but for the last message. -/
theorem scenario_exact {noWarmup : Bool} {sizes : List SizeName} {codecs : List CodecKind}
    {calls : List BenchCall} (hcalls : benchCalls noWarmup sizes codecs = some calls)
    (hcall : call ∈ calls)
    (hbytes : n * call.events.toNat * call.scenario.cfg.slotSize.toNat < 2 ^ 64)
    (h : BenchRun call.scenario.cfg (libs.codec call.codec) call.events payload as b log) :
    Going n libs call payload b log ∧
    payloadTotal call.scenario.cfg (libs.codec call.codec) (popped log) =
      (popped log).length * call.scenario.payloadSize ∧
    (popped log).length * call.scenario.payloadSize ≤ wireTotal (popped log) ∧
    wireTotal (popped log) ≤ (popped log).length * (call.scenario.payloadSize + 180) := by
  obtain ⟨hample, hevents⟩ := benchCalls_mem hcalls call hcall
  have hgoing := bench_going hdoc hjson hcompact hample hpayload hevents hbytes h
  exact ⟨hgoing, payloadTotal_eq hgoing.sized, wireTotal_bounds hgoing.sized⟩

/-- Everything that was sent is received and counted, and nobody has anything left to do. -/
structure Through (n : Nat) (libs : Libraries) (call : BenchCall) (payload : List UInt8)
    (s : System (Fin n) (libs.State call.codec) UInt64 Memory)
    (log : List (SysEvent (Fin n) UInt64)) :
    Prop where
  sent : ∀ j, (made (benchJobs n call.events payload j) j log).length = call.events.toNat
  received : ∀ j, received call.scenario.cfg (libs.codec call.codec) j log =
    (made (benchJobs n call.events payload j) j log).map Prod.fst
  events : s.consumer.stats.events.toNat = n * call.events.toNat
  payloadBytes : s.consumer.stats.payloadBytes.toNat =
    n * call.events.toNat * call.scenario.payloadSize
  wireBytes : n * call.events.toNat * call.scenario.payloadSize ≤ s.consumer.stats.wireBytes.toNat ∧
    s.consumer.stats.wireBytes.toNat ≤ n * call.events.toNat * (call.scenario.payloadSize + 180)
  handled : ∀ j, (s.producer j).queue = [] ∧ (s.producer j).socket = []
  returned : (∀ j, (s.producer j).pc = .returned) ∧ s.consumer.pc = .returned

omit hdoc hjson hcompact hpayload in
theorem Going.through (h : Going n libs call payload b log)
    (hcount : n * call.events.toNat * (call.scenario.payloadSize + 180) < 2 ^ 64)
    (hcompleted : Completed call.scenario.cfg (libs.codec call.codec)
      (benchJobs n call.events payload)
      b.sys log) (hhalted : b.sys.consumer.pc = .returned) :
    Through n libs call payload b.sys log := by
  have htotal := hcompleted.total
  have hstats := hcompleted.stats
  have hpay := payloadTotal_eq h.sized
  obtain ⟨hleast, hmost⟩ := wireTotal_bounds h.sized
  rw [sum_benchJobs] at htotal hstats
  rw [htotal] at hpay hleast hmost
  have hle : n * call.events.toNat * call.scenario.payloadSize ≤
      n * call.events.toNat * (call.scenario.payloadSize + 180) := Nat.mul_le_mul_left _ (by omega)
  have hone : n * call.events.toNat * 1 ≤ n * call.events.toNat *
      (call.scenario.payloadSize + 180) :=
    Nat.mul_le_mul_left _ (by omega)
  have hmod {k : Nat} (hk : k ≤ n * call.events.toNat * (call.scenario.payloadSize + 180)) :
      (UInt64.ofNat k).toNat = k := by
    rw [UInt64.toNat_ofNat', Nat.mod_eq_of_lt (by omega)]
  refine ⟨fun j => ?_, fun j => ?_, ?_, ?_, ?_, hcompleted.handled, hcompleted.returned, hhalted⟩
  · have hlen := congrArg List.length (hcompleted.encoded j)
    rw [encodings_eq (benchJobs n call.events payload j)] at hlen
    simpa [benchJobs] using hlen
  · exact h.arrived.complete hcompleted.returned (by rw [htotal, sum_benchJobs]) j
  · rw [hstats, hmod (by omega)]
  · rw [hstats, hmod (by omega), hpay]
  · rw [hstats, hmod hmost]
    exact ⟨hleast, hmost⟩

end Benches

/-! ### One producer and JSON -/

def smallWarmup : BenchCall where
  codec := .json
  scenario :=
    { name := "small", cfg := Presets.SMALL, payloadSize := 64, eventsPerProducer := 500000 }
  events := 50000

theorem smallWarmup_mem : ∃ calls, benchCalls false [.small] [.json] = some calls ∧
    smallWarmup ∈ calls :=
  ⟨_, rfl, List.mem_cons_self ..⟩

def smallBlank : Memory := { size := 524480, byte := fun _ => 0, size_lt := by decide }

theorem smallWarmup_ample : smallWarmup.scenario.Ample := scenarios_ample _ (List.mem_cons_self ..)

theorem smallWarmup_scheduled :
    ∃ payload, genBase64Blob smallWarmup.scenario.payloadSize = some payload ∧
    ∃ t : BenchTrace 1 smallWarmup.scenario.cfg (wireFormats.codec smallWarmup.codec)
      smallWarmup.events payload, t.Scheduled := by
  obtain ⟨payload, hgen, _⟩ := genBase64Blob_spec smallWarmup.scenario.payloadSize
  have hsend :=
    bench_sendable (n := 1) wireFormats_documented wireFormats_compact smallWarmup_ample hgen
      (by decide)
  have hfits : smallWarmup.scenario.cfg.Fits := by
    unfold Fits
    decide
  have hblank : smallBlank.size = smallWarmup.scenario.cfg.total.toNat := rfl
  obtain ⟨m, hi⟩ := init_isSome (check_iff.mp smallWarmup_ample.check) hfits hblank
  exact ⟨payload, hgen, _, benchTurns_scheduled smallWarmup_ample.slots.1 (by decide) hsend rfl hi⟩

/-- A bench that is done. -/
theorem scenario_exact_smallWarmup :
    ∃ payload as, ∃ b : Bench 1 (wireFormats.State smallWarmup.codec), ∃ log r,
      BenchRun smallWarmup.scenario.cfg (wireFormats.codec smallWarmup.codec) smallWarmup.events
      payload as b log ∧ b.pc = .done r ∧ Going 1 wireFormats smallWarmup payload b log := by
  obtain ⟨payload, hgen, t, ht⟩ := smallWarmup_scheduled
  obtain ⟨calls, hcalls, hcall⟩ := smallWarmup_mem
  have hsend :=
    bench_sendable (n := 1) wireFormats_documented wireFormats_compact smallWarmup_ample hgen
      (by decide)
  obtain ⟨k, r, hall⟩ := ht.reports smallWarmup_ample.slots.1 (by decide) hsend
  obtain ⟨as, hrun⟩ := ht.run k
  obtain ⟨hgoing, _⟩ :=
    scenario_exact wireFormats_documented compactJson_documented wireFormats_compact hgen hcalls
      hcall (by decide) hrun
  exact ⟨payload, as, t.state k, t.log k, r, hrun, (hall k (Nat.le_refl k)).1, hgoing⟩

end ShmMpsc
