import Mathlib.Data.List.Forall2
import ShmMpsc.Control.Serve

/-!
# Requests and responses

The lines of a connection are valid requests of JSON-RPC 2.0. Which of them the server
answers, and that it does so in their order.
-/

namespace ShmMpsc

set_option autoImplicit false

variable {φ : Type}

/-- A string or a number. -/
def Json.isId : Json Literal φ → Bool
  | .str _ | .num _ | .float _ => true
  | .null | .bool _ | .arr _ | .obj _ => false

/-- A line with a request object: a notification, when it has no `id`. -/
structure RequestLine (sj : SerdeJson φ) extends TextLine where
  fields : List (String × Json Literal φ)
  parses : sj.fromSlice toTextLine.trimmed = some (.obj fields)
  distinct : (fields.map Prod.fst).Nodup
  version : Literal
  version_mem : ("jsonrpc", .str version) ∈ fields
  version_eq : version.value = "2.0"
  method : Literal
  method_mem : ("method", .str method) ∈ fields
  id : Option (Json Literal φ)
  id_mem : ∀ v, id = some v ↔ ("id", v) ∈ fields
  id_isId : ∀ v, id = some v → v.isId = true

/-- Not a notification. -/
def RequestLine.hasId {sj : SerdeJson φ} (req : RequestLine sj) : Bool := req.id.isSome

/-- A response to the request. -/
def Answers {sj : SerdeJson φ} (resp : Json String φ) (req : RequestLine sj) : Prop :=
  ∃ id body, req.id = some id ∧
    (resp = response id.toValue body ∨ resp = errorResponse id.toValue body)

/-- The server comes to the end of these lines whatever the sizes of its reads and writes, and
has then written a line for each request that has an `id`, in order. -/
def Answered (sj : SerdeJson φ) (cfg : RingConfig) (reqs : List (RequestLine sj)) : Prop :=
  ∃ bound, ∀ as s log, (JsonServer.machine sj cfg).Run Machine.free
      (.start (joinLines newline (reqs.map fun req => req.bytes))) [] as s log →
    as.length ≤ bound ∧
    (s.pc ≠ .returned true → ∃ a, (JsonServer.step sj cfg s a).isSome) ∧
    (s.pc = .returned true → ∃ resps,
      s.out.bytes = joinLines newline (resps.map sj.toWriter) ∧
      List.Forall₂ Answers resps (reqs.filter RequestLine.hasId))

namespace RequestLine

variable {sj : SerdeJson φ} {cfg : RingConfig}

theorem deserialize (req : RequestLine sj) : ∃ params,
    Incoming.deserialize (.obj req.fields) = some
      { jsonrpc := "2.0", id := req.id.map Json.toValue, method := req.method.value,
        params := params } := by
  have hversion := Json.fieldOnce_of_mem req.distinct req.version_mem
  have hmethod := Json.fieldOnce_of_mem req.distinct req.method_mem
  have hid : ∃ o, Json.fieldOnce "id" req.fields = some o ∧
      o.bind Json.asOption = req.id.map Json.toValue := by
    cases h : req.id with
    | none =>
      refine ⟨none, Json.fieldOnce_of_not_mem fun v hv => ?_, rfl⟩
      rw [← req.id_mem, h] at hv
      cases hv
    | some v =>
      refine ⟨some v, Json.fieldOnce_of_mem req.distinct ((req.id_mem v).mp h), ?_⟩
      have hisId := req.id_isId v h
      cases v <;> first | rfl | cases hisId
  obtain ⟨params, hparams⟩ : ∃ o, Json.fieldOnce "params" req.fields = some o := by
    by_cases h : ∃ v, ("params", v) ∈ req.fields
    · obtain ⟨v, hv⟩ := h
      exact ⟨_, Json.fieldOnce_of_mem req.distinct hv⟩
    · exact ⟨_, Json.fieldOnce_of_not_mem fun v hv => h ⟨v, hv⟩⟩
  obtain ⟨id, hid, hidv⟩ := hid
  refine ⟨params.elim .null Json.toValue, ?_⟩
  simp [Incoming.deserialize, hversion, hmethod, hid, hparams, hidv, Json.asString, req.version_eq]

/-- Every method but `posted` answers a request that has an `id`. -/
theorem handled_resp (req : RequestLine sj) (cfg : RingConfig) :
    (req.hasId ∧ req.method.value ≠ "posted" → ∃ resp,
      (req.handled sj cfg).resp = some resp ∧ Answers resp req) ∧
    (¬ (req.hasId ∧ req.method.value ≠ "posted") → (req.handled sj cfg).resp = none) := by
  obtain ⟨params, hmsg⟩ := req.deserialize
  have hline : req.handled sj cfg = JsonServer.handle cfg
      { jsonrpc := "2.0", id := req.id.map Json.toValue, method := req.method.value,
        params := params } := by
    rw [TextLine.handled, JsonServer.line, req.parses, Option.bind_some, hmsg]
  rw [hline, JsonServer.handle]
  constructor
  · rintro ⟨hid, hm⟩
    obtain ⟨id, hid⟩ := Option.isSome_iff_exists.mp hid
    dsimp only
    split
    · exact ⟨_, by rw [hid]; rfl, id, _, hid, .inl rfl⟩
    · rename_i heq
      exact absurd heq hm
    · exact ⟨_, by rw [hid]; rfl, id, _, hid, .inr rfl⟩
  · intro h
    dsimp only
    split
    · rename_i heq
      have hid : req.id = none := by
        by_contra hid
        exact h ⟨Option.isSome_iff_ne_none.mpr hid, by rw [heq]; decide⟩
      simp [Handled.resp, hid]
    · rfl
    · rename_i hne
      have hid : req.id = none := by
        by_contra hid
        exact h ⟨Option.isSome_iff_ne_none.mpr hid, hne⟩
      simp [Handled.resp, hid]

end RequestLine

section Law

variable (sj : SerdeJson φ) (cfg : RingConfig)

/-- What the server answers. -/
def responses (reqs : List (RequestLine sj)) : List (Json String φ) :=
  reqs.filterMap fun req => (req.handled sj cfg).resp

variable {sj cfg}

theorem responses_cons_some {req : RequestLine sj} {resp : Json String φ}
    (h : (req.handled sj cfg).resp = some resp) (reqs : List (RequestLine sj)) :
    responses sj cfg (req :: reqs) = resp :: responses sj cfg reqs := by
  rw [responses, List.filterMap_cons, h]
  rfl

theorem responses_cons_none {req : RequestLine sj} (h : (req.handled sj cfg).resp = none)
    (reqs : List (RequestLine sj)) : responses sj cfg (req :: reqs) = responses sj cfg reqs := by
  rw [responses, List.filterMap_cons, h]
  rfl

theorem replies_eq (reqs : List (RequestLine sj)) :
    (reqs.map RequestLine.toTextLine).flatMap (TextLine.reply sj cfg) =
      joinLines newline ((responses sj cfg reqs).map sj.toWriter) := by
  induction reqs with
  | nil => rfl
  | cons req reqs ih =>
    rw [List.map_cons, List.flatMap_cons, ih, TextLine.reply, Handled.reply]
    cases hresp : (req.handled sj cfg).resp with
    | none => rw [responses_cons_none hresp, List.nil_append]
    | some resp =>
      rw [responses_cons_some hresp, List.map_cons, joinLines_cons]
      simp

theorem responses_answers {reqs : List (RequestLine sj)}
    (h : ∀ req ∈ reqs, req.hasId → req.method.value ≠ "posted") :
    List.Forall₂ Answers (responses sj cfg reqs) (reqs.filter RequestLine.hasId) := by
  induction reqs with
  | nil => exact .nil
  | cons req reqs ih =>
    have ih := ih fun r hr => h r (List.mem_cons_of_mem _ hr)
    obtain ⟨hsome, hnone⟩ := req.handled_resp cfg
    by_cases hid : req.hasId
    · obtain ⟨resp, hresp, hans⟩ := hsome ⟨hid, h req List.mem_cons_self hid⟩
      rw [responses_cons_some hresp, List.filter_cons_of_pos hid]
      exact .cons hans ih
    · rw [responses_cons_none (hnone fun h => hid h.1), List.filter_cons_of_neg hid]
      exact ih

theorem responses_length_lt {reqs : List (RequestLine sj)} {req : RequestLine sj}
    (hreq : req ∈ reqs) (hid : req.hasId) (hm : req.method.value = "posted") :
    (responses sj cfg reqs).length < (reqs.filter RequestLine.hasId).length := by
  have hle : ∀ rs : List (RequestLine sj),
      (responses sj cfg rs).length ≤ (rs.filter RequestLine.hasId).length := by
    intro rs
    rw [responses, List.length_filterMap_eq_countP, ← List.countP_eq_length_filter]
    refine List.countP_mono_left fun r _ hr => ?_
    by_contra hnot
    rw [(r.handled_resp cfg).2 fun h => hnot h.1] at hr
    cases hr
  obtain ⟨before, after, rfl⟩ := List.append_of_mem hreq
  have hnone : (req.handled sj cfg).resp = none := (req.handled_resp cfg).2 fun h => h.2 hm
  have hsplit : responses sj cfg (before ++ req :: after) =
      responses sj cfg before ++ responses sj cfg after := by
    simp [responses, hnone]
  rw [hsplit, List.filter_append, List.filter_cons_of_pos hid]
  have h1 := hle before
  have h2 := hle after
  simp only [List.length_append, List.length_cons]
  omega

theorem answered_run {reqs : List (RequestLine sj)} {as : List ServeAction} {s : ServeState}
    {log : List (ServeEvent φ)} (hrun : (JsonServer.machine sj cfg).Run Machine.free
      (.start (joinLines newline (reqs.map fun req => req.bytes))) [] as s log) :
    as.length ≤ (ServeState.start (joinLines newline (reqs.map fun req => req.bytes))).work sj cfg
        (reqs.map RequestLine.toTextLine) ∧
    (s.pc ≠ .returned true → ∃ a, (JsonServer.step sj cfg s a).isSome) ∧
    (s.pc = .returned true →
      s.out.bytes = joinLines newline ((responses sj cfg reqs).map sj.toWriter)) := by
  have hclosed : s.inp.closed = true := hrun.invariant (I := fun s _ => s.inp.closed = true) rfl
    fun _ _ _ _ _ hI _ hs => (JsonServer.step_closed hs).trans hI
  have hbytes : reqs.map (fun req => req.bytes) =
      (reqs.map RequestLine.toTextLine).map TextLine.bytes := by
    rw [List.map_map]
    rfl
  rw [hbytes] at hrun ⊢
  obtain ⟨done, todo, hlines, h, hwork⟩ := Serving.run hrun
  refine ⟨by omega, h.progress hclosed, fun hpc => ?_⟩
  obtain ⟨-, rfl, -⟩ := h.returned true hpc
  have hwrote := h.wrote
  rw [List.append_nil] at hlines
  rw [hpc, ServePc.pending, List.append_nil, List.nil_append, hlines] at hwrote
  rw [hwrote, replies_eq]

theorem answered_of {reqs : List (RequestLine sj)}
    (hm : ∀ req ∈ reqs, req.hasId → req.method.value ≠ "posted") : Answered sj cfg reqs := by
  refine ⟨(ServeState.start (joinLines newline (reqs.map fun req => req.bytes))).work sj cfg
    (reqs.map RequestLine.toTextLine), fun as s log hrun => ?_⟩
  obtain ⟨hbound, hprog, hout⟩ := answered_run hrun
  exact ⟨hbound, hprog, fun hpc => ⟨_, hout hpc, responses_answers hm⟩⟩

theorem not_answered_of_posted (h : sj.OneLine) {reqs : List (RequestLine sj)}
    {req : RequestLine sj} (hreq : req ∈ reqs) (hid : req.hasId)
    (hm : req.method.value = "posted") : ¬ Answered sj cfg reqs := by
  rintro ⟨bound, hall⟩
  obtain ⟨as, s, log, hrun, hpc⟩ := Machine.exists_run_until
    (F := fun s : ServeState => s.pc = .returned true) (b := bound)
    (fun as s log hrun hpc => by
      obtain ⟨a, ha⟩ := (hall as s log hrun).2.1 hpc
      obtain ⟨r, hr⟩ := Option.isSome_iff_exists.mp ha
      exact ⟨a, r.1, r.2, trivial, hr⟩)
    fun as s log hrun => (hall as s log hrun).1
  obtain ⟨resps, hout, hans⟩ := (hall as s log hrun).2.2 hpc
  have hclean : ∀ vs : List (Json String φ), ∀ l ∈ vs.map sj.toWriter, newline ∉ l := by
    intro vs l hl
    obtain ⟨v, _, rfl⟩ := List.mem_map.mp hl
    obtain ⟨s, hs, hline, -⟩ := h.text v
    rw [hs]
    exact newline_not_mem_utf8 hline
  have hlines := joinLines_inj (hclean resps) (hclean (responses sj cfg reqs))
    (hout.symm.trans ((answered_run hrun).2.2 hpc))
  have hlen := congrArg List.length hlines
  rw [List.length_map, List.length_map, hans.length_eq] at hlen
  have hlt : (responses sj cfg reqs).length < _ := responses_length_lt hreq hid hm
  omega

/-- All requests are answered when none of those that have an `id` is a `posted`, and only
then. -/
theorem answered_iff (h : sj.OneLine) (reqs : List (RequestLine sj)) :
    Answered sj cfg reqs ↔ ∀ req ∈ reqs, req.hasId → req.method.value ≠ "posted" :=
  ⟨fun hall _ hreq hid hm => not_answered_of_posted h hreq hid hm hall, answered_of⟩

end Law

/-! ### A request for `posted` and one for something else -/

/-- A compact request line with a small `id`. -/
noncomputable def compactRequest (id : UInt64) (method : String) : RequestLine compactJson where
  toTextLine := compactJson_oneLine.line
    (.obj [("jsonrpc", .str "2.0"), ("id", .num (.ofU64 id)), ("method", .str method)])
  fields := [("jsonrpc", .str (.of "2.0")), ("id", .num (.ofU64 id)), ("method", .str (.of method))]
  parses := by
    rw [SerdeJson.OneLine.line_trimmed, compactJson_documented.roundTrip _ (by simp [Json.within])]
    rfl
  distinct := by simp
  version := .of "2.0"
  version_mem := by simp
  version_eq := rfl
  method := .of method
  method_mem := by simp
  id := some (.num (.ofU64 id))
  id_mem := by simp [eq_comm]
  id_isId := by
    rintro _ ⟨⟩
    rfl

theorem answered_iff_unknown :
    Answered compactJson Presets.SMALL [compactRequest 1 "attach", compactRequest 2 "detach"] :=
  (answered_iff compactJson_oneLine _).mpr (by simp [compactRequest])

/-- The line `{"jsonrpc":"2.0","id":7,"method":"posted"}` gets no answer. -/
theorem posted_request_unanswered :
    ¬ Answered compactJson Presets.SMALL [compactRequest 7 "posted"] :=
  not_answered_of_posted compactJson_oneLine List.mem_cons_self rfl rfl

end ShmMpsc
