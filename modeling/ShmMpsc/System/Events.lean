import ShmMpsc.Proto.Codecs
import ShmMpsc.System.EndToEnd

/-!
# What arrives is what was sent

The codec on both ends of the ring. What the consumer decodes of a producer's messages are the
events that this producer encoded, in their order, whatever the others do.
-/

namespace ShmMpsc

set_option autoImplicit false

open RingConfig

variable {ι C W M : Type}

/-! ### A codec that takes its records out -/

section Codec

variable {codec : Codec C} {cfg : RingConfig}

/-- The event of a record, for a codec that has done nothing yet. -/
def Codec.eventOf (codec : Codec C) (cfg : RingConfig) (raw : List UInt8) : DecodedEvent :=
  (codec.decodeInto (codec.new cfg) raw .empty).2.1

/-- The record decodes, and to the same event whatever the codec did before. -/
def Codec.Decodable (codec : Codec C) (cfg : RingConfig) (raw : List UInt8) : Prop :=
  ∀ d out, codec.Used cfg d → ∃ d', codec.decodeInto d raw out = (d', codec.eventOf cfg raw, true)

/-- What is encoded and fits comes back as the event. -/
theorem Codec.TakesOut.decodable {ev : DecodedEvent} (h : codec.TakesOut cfg ev) {c c' : C}
    {bytes : List UInt8} (hc : codec.Used cfg c)
    (henc : codec.encode c ev.seq ev.timestamp ev.source ev.kind ev.payload [] = .ok (c', bytes))
    (hlen : bytes.length ≤ cfg.maxLen.toNat) :
    codec.Decodable cfg bytes ∧ codec.eventOf cfg bytes = ev := by
  have hev : codec.eventOf cfg bytes = ev := by
    obtain ⟨d', hd⟩ := h c c' (codec.new cfg) bytes .empty hc .new henc hlen
    rw [eventOf, hd]
  refine ⟨fun d out hd => ?_, hev⟩
  rw [hev]
  exact h c c' d bytes out hc hd henc hlen

theorem decodes_eq_map {raws : List (List UInt8)} (h : ∀ raw ∈ raws, codec.Decodable cfg raw)
    (st : C × DecodedEvent) (hst : codec.Used cfg st.1) :
    decodes codec st raws = raws.map (codec.eventOf cfg) := by
  induction raws generalizing st with
  | nil => rfl
  | cons raw raws ih =>
    obtain ⟨d', hd⟩ := h raw (List.mem_cons_self ..) st.1 st.2 hst
    have hused : codec.Used cfg (codec.decodeInto st.1 raw st.2).1 := .decodeInto raw st.2 hst
    have htail := ih (fun r hr => h r (List.mem_cons_of_mem _ hr)) (decodeNext codec st raw) hused
    rw [decodes, htail, hd]
    rfl

end Codec

/-! ### What was made -/

/-- Event `i` of a job, encoded at `now`. -/
def Job.event (job : Job) (i now : UInt64) : DecodedEvent where
  seq := i
  timestamp := now
  source := job.name
  kind := .metric
  payload := job.payload

section Made

variable [DecidableEq ι]

/-- The events that producer `j` has encoded, with their encodings. -/
def made (job : Job) (j : ι) : List (SysEvent ι W) → List (DecodedEvent × List UInt8) :=
  List.filterMap fun
    | .encode i seq now data => if i = j then some (job.event seq now, data) else none
    | _ => none

variable {job : Job} {j : ι} {log ev : List (SysEvent ι W)}

@[simp] theorem made_append : made job j (log ++ ev) = made job j log ++ made job j ev :=
  List.filterMap_append

theorem encodings_eq (job : Job) (j : ι) (log : List (SysEvent ι W)) :
    encodings j log = (made job j log).map fun r => (r.1.seq, r.2) := by
  rw [made, encodings, List.map_filterMap]
  congr 1
  funext e
  cases e with
  | encode i seq now data =>
    dsimp only
    split <;> rfl
  | _ => rfl

/-- What was made is an event of the job. -/
theorem made_event {r : DecodedEvent × List UInt8} (h : r ∈ made job j log) :
    ∃ i now, r.1 = job.event i now := by
  obtain ⟨e, _, he⟩ := List.mem_filterMap.mp h
  split at he
  · split at he
    · obtain rfl := Option.some.inj he
      exact ⟨_, _, rfl⟩
    · cases he
  · cases he

theorem made_eq_nil (h : encodings j ev = []) : made job j ev = [] := by
  rw [encodings_eq job, List.map_eq_nil_iff] at h
  exact h

/-- An encoding that the codec gives the event. -/
def Crafted (cfg : RingConfig) (codec : Codec C) (r : DecodedEvent × List UInt8) : Prop :=
  ∃ c c', codec.Used cfg c ∧
    codec.encode c r.1.seq r.1.timestamp r.1.source r.1.kind r.1.payload [] = .ok (c', r.2)

/-- The codecs of the producers are what calls leave, and made all that was made. -/
structure MadeOk (cfg : RingConfig) (codec : Codec C) (jobs : ι → Job) (s : System ι C W M)
    (log : List (SysEvent ι W)) : Prop where
  used : ∀ j, codec.Used cfg (s.producer j).codec
  crafted : ∀ j, ∀ r ∈ made (jobs j) j log, Crafted cfg codec r

variable {cfg : RingConfig} {codec : Codec C} {ops : SegOps W M} {now : UInt64} {spurious : Bool}
  {p p' : Producer C W} {push push' : PushPc W} {m m' : M}

theorem ProducerTrans.made
    (ht : ProducerTrans cfg codec ops job j now spurious p push m p' push' m' ev)
    (hused : codec.Used cfg p.codec) :
    codec.Used cfg p'.codec ∧ ∀ r ∈ ShmMpsc.made job j ev, Crafted cfg codec r := by
  have hnone {ev : List (SysEvent ι W)} (h : encodings j ev = []) :
      ∀ r ∈ ShmMpsc.made job j ev, Crafted cfg codec r := by
    rw [made_eq_nil h]
    exact fun r hr => absurd hr List.not_mem_nil
  cases ht with
  | @encode i c data _ _ he =>
    refine ⟨.encode hused he, fun r hr => ?_⟩
    have hone : ShmMpsc.made job j
        ([.encode j i now data, .ring (.call j data)] : List (SysEvent ι W)) =
        [(job.event i now, data)] := by
      simp [ShmMpsc.made]
    rw [hone, List.mem_singleton] at hr
    subst hr
    exact ⟨p.codec, c, hused, he⟩
  | push => exact ⟨hused, hnone (by simp [encodings, List.filterMap_map])⟩
  | encodeErr | finish | retry | won | lost | signal | returned => exact ⟨hused, hnone rfl⟩

variable [DecidableEq W] {mm : MemModel ι W M} {jobs : ι → Job} {s s' : System ι C W M}

omit [DecidableEq W] in
theorem MadeOk.relay (h : MadeOk cfg codec jobs s log)
    (hcodec : ∀ k, (s'.producer k).codec = (s.producer k).codec) (hev : ∀ k, encodings k ev = []) :
    MadeOk cfg codec jobs s' (log ++ ev) := by
  refine ⟨fun k => hcodec k ▸ h.used k, fun k => ?_⟩
  rw [made_append, made_eq_nil (hev k), List.append_nil]
  exact h.crafted k

theorem MadeOk.step (h : MadeOk cfg codec jobs s log) {a : SysAction ι}
    (hs : sysStep cfg codec mm jobs s a = some (s', ev)) :
    MadeOk cfg codec jobs s' (log ++ ev) := by
  have hupdate {j : ι} {p : Producer C W} (hp : p.codec = (s.producer j).codec) (k : ι) :
      (Function.update s.producer j p k).codec = (s.producer k).codec := by
    by_cases hk : k = j
    · subst hk
      simp [hp]
    · simp [hk]
  cases sysTrans_of_step hs with
  | @producer j now spurious p push m _ ht =>
    obtain ⟨hused, hcrafted⟩ := ht.made (h.used j)
    refine ⟨fun k => ?_, fun k r hr => ?_⟩
    · by_cases hk : k = j
      · subst hk
        simpa [System.setProducer] using hused
      · simpa [System.setProducer, hk] using h.used k
    · rw [made_append, List.mem_append] at hr
      rcases hr with hr | hr
      · exact h.crafted k r hr
      · by_cases hk : k = j
        · subst hk
          exact hcrafted r hr
        · rw [made_eq_nil (ht.others hk).1] at hr
          cases hr
  | send hp =>
    cases hp
    exact h.relay (hupdate rfl) fun _ => rfl
  | serve hp =>
    cases hp <;> exact h.relay (hupdate rfl) fun _ => rfl
  | drop => exact h.relay (hupdate rfl) fun _ => rfl
  | consumer ht => exact h.relay (fun _ => rfl) fun k => (ht.quiet k).1
  | commit => exact h.relay (fun _ => rfl) fun _ => rfl
  | stop => exact h.relay (fun _ => rfl) fun _ => rfl

omit [DecidableEq W] in
theorem madeOk_start (m : M) :
    MadeOk cfg codec jobs (System.start cfg codec m : System ι C W M) [] :=
  ⟨fun _ => .new, fun _ _ hr => absurd hr List.not_mem_nil⟩

end Made

/-! ### What is received -/

section Received

variable [DecidableEq ι] {cfg : RingConfig} {codec : Codec C} {jobs : ι → Job}
  {s : System ι C UInt64 Memory} {log : List (SysEvent ι UInt64)} {as : List (SysAction ι)}

theorem ScRun.madeOk {G} (h : ScRun cfg codec jobs G as s log) : MadeOk cfg codec jobs s log := by
  obtain ⟨m, m', _, _, hrun⟩ := h
  exact hrun.invariant (madeOk_start m') fun _ _ _ _ _ hI _ hs => hI.step hs

/-- The events decoded from the messages of producer `j`. -/
def received (cfg : RingConfig) (codec : Codec C) (j : ι) (log : List (SysEvent ι W)) :
    List DecodedEvent :=
  ((reserves (ringLog log)).zip (decodes codec (codec.new cfg, .empty) (popped log))).filterMap
    fun r => if r.1.1 = j then some r.2 else none

theorem received_eq (h : ∀ raw ∈ popped log, codec.Decodable cfg raw) (j : ι) :
    received cfg codec j log = (processed j log).map (codec.eventOf cfg) := by
  rw [received, decodes_eq_map h _ .new, List.zip_map_right, List.filterMap_map, processed,
    List.map_filterMap]
  congr 1
  funext r
  by_cases hj : r.1.1 = j
  · simp [hj]
  · simp [hj]

/-- What every producer made is what the consumer has, in the producer's order and up to where it
has come. -/
structure Arrived [Fintype ι] (cfg : RingConfig) (codec : Codec C) (jobs : ι → Job)
    (s : System ι C UInt64 Memory) (log : List (SysEvent ι UInt64)) : Prop where
  numbered : ∀ j, (made (jobs j) j log).map (fun r => r.1.seq) =
    (List.range (made (jobs j) j log).length).map UInt64.ofNat
  decoded : (decodes codec (codec.new cfg, .empty) (popped log)).length = (popped log).length
  inOrder : ∀ j, received cfg codec j log <+: (made (jobs j) j log).map Prod.fst
  nothingElse : ∀ e ∈ decodes codec (codec.new cfg, .empty) (popped log),
    ∃ j, e ∈ (made (jobs j) j log).map Prod.fst
  complete : (∀ j, (s.producer j).pc = .returned) →
    (popped log).length = ∑ j, (jobs j).n.toNat →
    ∀ j, received cfg codec j log = (made (jobs j) j log).map Prod.fst

section Pushed

variable {u : RingState ι Nat UMem} {ulog : List (RingEvent ι Nat)}

theorem pushes_length_le (h : Refines cfg s.ring (ringLog log) u ulog) {j : ι} {data : List UInt8}
    (hdata : data ∈ pushes j log) : data.length ≤ cfg.S - 20 := by
  obtain ⟨r, hr, hj⟩ := List.mem_filterMap.mp hdata
  obtain ⟨k, hk⟩ := List.mem_iff_getElem?.mp hr
  split at hj
  · obtain rfl := Option.some.inj hj
    exact (h.reserved_at hk).2
  · cases hj

/-- What was pushed of what was made. -/
theorem made_pushed (hloops : LoopsOk cfg codec jobs s log) (j : ι) :
    ((made (jobs j) j log).take (pushes j log).length).map Prod.snd = pushes j log := by
  have hpre := (hloops.producers j).booked.pushed.1
  rw [encodings_eq (jobs j), List.map_map] at hpre
  rw [List.map_take]
  exact (List.prefix_iff_eq_take.mp hpre).symm

/-- A message that was pushed decodes to its event. -/
theorem pushed_decodable (hg : cfg.Admitted) (hsize : cfg.slotSize.toNat < 2 ^ 32)
    (htakes : ∀ j i now, codec.TakesOut cfg ((jobs j).event i now))
    (hR : Refines cfg s.ring (ringLog log) u ulog) (hloops : LoopsOk cfg codec jobs s log)
    (hmade : MadeOk cfg codec jobs s log) {j : ι} {r : DecodedEvent × List UInt8}
    (hr : r ∈ (made (jobs j) j log).take (pushes j log).length) :
    truncated r.2 = r.2 ∧ codec.Decodable cfg r.2 ∧ codec.eventOf cfg r.2 = r.1 := by
  have hmem := List.mem_of_mem_take hr
  have hpushed : r.2 ∈ pushes j log := by
    rw [← made_pushed hloops j]
    exact List.mem_map_of_mem hr
  have hlen := pushes_length_le hR hpushed
  obtain ⟨c, c', hc, henc⟩ := hmade.crafted j r hmem
  obtain ⟨i, now, hevent⟩ := made_event hmem
  refine ⟨Refines.length_le_maxLen hg hsize hlen, ?_⟩
  refine Codec.TakesOut.decodable (hevent ▸ htakes j i now) hc henc ?_
  rw [maxLen_toNat hg.min]
  exact hlen

/-- And so does every message that was popped. -/
theorem popped_decodable (hg : cfg.Admitted) (hsize : cfg.slotSize.toNat < 2 ^ 32)
    (htakes : ∀ j i now, codec.TakesOut cfg ((jobs j).event i now))
    (hR : Refines cfg s.ring (ringLog log) u ulog) (hloops : LoopsOk cfg codec jobs s log)
    (hmade : MadeOk cfg codec jobs s log) {raw : List UInt8} (hraw : raw ∈ popped log) :
    codec.Decodable cfg raw ∧ ∃ j, (codec.eventOf cfg raw, raw) ∈ made (jobs j) j log := by
  rw [popped_eq hR] at hraw
  obtain ⟨⟨j, data, pos⟩, hmem, rfl⟩ := List.mem_map.mp hraw
  have hdata : data ∈ pushes j log :=
    List.mem_filterMap.mpr ⟨_, List.mem_of_mem_take hmem, if_pos rfl⟩
  rw [← made_pushed hloops j] at hdata
  obtain ⟨r, hr, rfl⟩ := List.mem_map.mp hdata
  obtain ⟨hwhole, hdec, hev⟩ := pushed_decodable hg hsize htakes hR hloops hmade hr
  dsimp only
  rw [hwhole, hev]
  exact ⟨hdec, j, List.mem_of_mem_take hr⟩

/-- The events of the messages of a producer, as far as it has pushed them. -/
theorem pushes_events (hg : cfg.Admitted) (hsize : cfg.slotSize.toNat < 2 ^ 32)
    (htakes : ∀ j i now, codec.TakesOut cfg ((jobs j).event i now))
    (hR : Refines cfg s.ring (ringLog log) u ulog) (hloops : LoopsOk cfg codec jobs s log)
    (hmade : MadeOk cfg codec jobs s log) (j : ι) :
    ((pushes j log).map truncated).map (codec.eventOf cfg) =
      ((made (jobs j) j log).map Prod.fst).take (pushes j log).length := by
  have heq := made_pushed hloops j
  rw [List.map_map, ← List.map_take]
  conv_lhs => rw [← heq]
  rw [List.map_map]
  refine List.map_congr_left fun r hr => ?_
  obtain ⟨hwhole, _, hev⟩ := pushed_decodable hg hsize htakes hR hloops hmade hr
  rw [Function.comp_apply, Function.comp_apply, hwhole, hev]

end Pushed

/-- In every run the events that the codec takes out come out as they were made. -/
theorem ScRun.arrived [Fintype ι] (hN : 2 ≤ cfg.N) (hsize : cfg.slotSize.toNat < 2 ^ 32)
    (htakes : ∀ j i now, codec.TakesOut cfg ((jobs j).event i now))
    (h : ScRun cfg codec jobs (sysWindowed (2 ^ 63 - cfg.N)) as s log) :
    Arrived cfg codec jobs s log := by
  have hloops := h.loopsOk
  have hmade := h.madeOk
  obtain ⟨bs, hinit⟩ := h.initRun
  obtain ⟨u, ulog, hR⟩ := hinit.refines hN
  have hg := hinit.admitted
  have hpopped (raw : List UInt8) (hraw : raw ∈ popped log) :=
    popped_decodable hg hsize htakes hR hloops hmade hraw
  have hdecodes :=
    decodes_eq_map (fun raw hraw => (hpopped raw hraw).1) (codec.new cfg, .empty) .new
  have hreceived := received_eq fun raw hraw => (hpopped raw hraw).1
  have hevents := pushes_events hg hsize htakes hR hloops hmade
  refine ⟨fun j => ?_, ?_, fun j => ?_, fun e he => ?_, fun hret hall j => ?_⟩
  · have hbooked := (hloops.producers j).booked.numbered
    rw [encodings_eq (jobs j), List.map_map, List.length_map] at hbooked
    exact hbooked
  · rw [hdecodes, List.length_map]
  · rw [hreceived]
    have hpre := processed_prefix hR j
    have hpre := hpre.map (codec.eventOf cfg)
    rw [hevents j] at hpre
    exact hpre.trans (List.take_prefix _ _)
  · rw [hdecodes] at he
    obtain ⟨raw, hraw, rfl⟩ := List.mem_map.mp he
    obtain ⟨j, hmem⟩ := (hpopped raw hraw).2
    exact ⟨j, List.mem_map_of_mem (f := Prod.fst) hmem⟩
  · have hsent (j : ι) : Sent (jobs j).n (encodings j log) (pushes j log) (jobs j).n.toNat := by
      have hok := hloops.producers j
      rw [hret j] at hok
      exact hok
    have hlen (j : ι) : (pushes j log).length = (jobs j).n.toNat := by
      rw [(hsent j).pushed, List.length_map, (hsent j).length]
    have hreserves : (popped log).length = (reserves (ringLog log)).length := by
      rw [hall, reserves_length_eq_sum]
      exact Finset.sum_congr rfl fun j _ => (hlen j).symm
    have hmake : (made (jobs j) j log).length = (jobs j).n.toNat := by
      rw [← (hsent j).length, encodings_eq (jobs j), List.length_map]
    rw [hreceived, processed_all hR hreserves, hevents j, hlen j, ← hmake]
    rw [← List.length_map (f := Prod.fst), List.take_length]

/-- With each of the six codecs, what the consumer decodes is what the producers encoded; in JSON of
jobs without anything to escape. -/
theorem events_arrive [Fintype ι] {libs : Libraries} (hdoc : libs.Documented)
    (hjson : libs.serdeJson.Documented) {kind : CodecKind} (hN : 2 ≤ cfg.N)
    (hsize : cfg.slotSize.toNat ≤ 2 * 1024 * 1024)
    (hclear : kind = .json → ∀ j, ((jobs j).event 0 0).Clear)
    {s : System ι (libs.State kind) UInt64 Memory}
    (h : ScRun cfg (libs.codec kind) jobs (sysWindowed (2 ^ 63 - cfg.N)) as s log) :
    Arrived cfg (libs.codec kind) jobs s log := by
  obtain ⟨bs, hinit⟩ := h.initRun
  refine h.arrived hN (by omega) fun j i now => ?_
  exact Libraries.takesOut hdoc hjson (check_iff.mpr hinit.admitted) hsize fun hkind =>
    ⟨(hclear hkind j).source, (hclear hkind j).payload⟩

end Received

def pair : RingConfig := { numSlots := 2, slotSize := 64 }

def pairBlank : Memory := { size := 320, byte := fun _ => 0, size_lt := by decide }

theorem twoEach_exec :
    ((init pair pairBlank).bind fun m =>
      (sysMachine pair (wireFormats.codec .proto) (sc (segOps pair)) twoEach).exec
        (System.start pair (wireFormats.codec .proto) m, []) fourDeliveries).map (fun c =>
      decide ((received pair (wireFormats.codec .proto) false c.2 =
          [⟨0, 0, "p0", .metric, [7]⟩, ⟨1, 0, "p0", .metric, [7]⟩]) ∧
        received pair (wireFormats.codec .proto) true c.2 =
          [⟨0, 0, "p1", .metric, [8]⟩, ⟨1, 0, "p1", .metric, [8]⟩])) = some true := by
  decide +kernel

theorem events_arrive_twoEach : ∃ s log,
    ScRun pair (wireFormats.codec .proto) twoEach (sysWindowed (2 ^ 63 - pair.N)) fourDeliveries
      s log ∧
    Arrived pair (wireFormats.codec .proto) twoEach s log ∧
    received pair (wireFormats.codec .proto) false log =
      [⟨0, 0, "p0", .metric, [7]⟩, ⟨1, 0, "p0", .metric, [7]⟩] ∧
    received pair (wireFormats.codec .proto) true log =
      [⟨0, 0, "p1", .metric, [8]⟩, ⟨1, 0, "p1", .metric, [8]⟩] := by
  obtain ⟨c, hc, hd⟩ := Option.map_eq_some_iff.mp twoEach_exec
  obtain ⟨m, hi, hrun⟩ := Option.bind_eq_some_iff.mp hc
  have hfree : ScRun pair (wireFormats.codec .proto) twoEach Machine.free fourDeliveries c.1 c.2 :=
    ⟨pairBlank, m, rfl, hi, Machine.run_of_exec hrun⟩
  have hrun := hfree.windowed_of_total (b := 2 ^ 63 - pair.N) (by decide)
  have harrived := events_arrive wireFormats_documented compactJson_documented (by decide)
    (by decide) (fun h => by cases h) hrun
  exact ⟨c.1, c.2, hrun, harrived, of_decide_eq_true hd⟩

end ShmMpsc
