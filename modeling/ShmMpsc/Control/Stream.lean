import ShmMpsc.Control.Serve

/-!
# The stream from `JsonClient` to `JsonServer`

A client that attaches, posts and shuts down, with the task that writes for it, against the
server's loop: two byte streams, in which neither side keeps to the other's boundaries.
-/

namespace ShmMpsc

set_option autoImplicit false

variable {φ : Type}

/-- `Notification` with `PostedParams`. -/
def postedNotification (seq : UInt64) : Json String φ :=
  .obj [("jsonrpc", .str "2.0"), ("method", .str "posted"),
    ("params", .obj [("seq", .num (.ofU64 seq))])]

inductive ClientPc where
  /-- in `write_all` of the attach request -/
  | request (pending : List UInt8)
  /-- in `read_line` of the response -/
  | response
  /-- `attach` has returned a client -/
  | attached (info : AttachInfo)
  /-- `posted_tx` is dropped and the writer task awaited -/
  | shutdown
  | returned
  /-- `attach` has returned an error -/
  | failed

/-- The task that writes the notifications. -/
inductive WriterPc where
  | absent
  | recv
  | writing (pending : List UInt8)
  | done

def ClientPc.ofPending : List UInt8 → ClientPc
  | [] => .response
  | pending => .request pending

def WriterPc.ofPending : List UInt8 → WriterPc
  | [] => .recv
  | pending => .writing pending

def ClientPc.pending : ClientPc → List UInt8
  | .request pending => pending
  | _ => []

def WriterPc.pending : WriterPc → List UInt8
  | .writing pending => pending
  | _ => []

structure ClientState where
  pc : ClientPc
  /-- the `BufReader` and `resp_line` -/
  reader : LineReader UInt8
  /-- the channel from `posted_tx` to `posted_rx` -/
  queue : List UInt64
  writer : WriterPc

structure StreamState where
  client : ClientState
  server : ServeState

inductive StreamAction where
  | signalPosted (seq : UInt64)
  | shutdown
  /-- `attach` writes `n` bytes -/
  | write (n : Nat)
  | fill (n : Nat)
  | scan
  | eof
  /-- the writer task receives, or finds the channel closed -/
  | recv
  /-- the writer task writes `n` bytes -/
  | writeTask (n : Nat)
  /-- `shutdown` returns -/
  | join
  | server (a : ServeAction)

/-- The steps of a connection that are calls made by `run`. -/
def StreamAction.isCall : StreamAction → Bool
  | .signalPosted _ | .shutdown => true
  | _ => false

inductive StreamEvent (φ : Type) where
  | signal (seq : UInt64)
  | written (bytes : List UInt8)
  | server (e : ServeEvent φ)

section Step

variable (sj : SerdeJson φ) (cfg : RingConfig)

/-- `attach` after `read_line`: the writer task is spawned when all went well. -/
def StreamState.readResponse (s : StreamState) (line : List UInt8) : StreamState :=
  let failed := { s with
    client := { s.client with pc := .failed }
    server := { s.server with inp := { s.server.inp with closed := true } } }
  match fromUtf8 line with
  | none => failed
  | some line =>
    match JsonClient.readResponse sj (if line = "" then none else some (utf8 (trimEnd line))) with
    | .error _ => failed
    | .ok info => { s with client := { s.client with pc := .attached info, writer := .recv } }

/-- Bytes the client puts on the wire. -/
def StreamState.send (s : StreamState) (bytes : List UInt8) : ServeState :=
  { s.server with inp := { s.server.inp with bytes := s.server.inp.bytes ++ bytes } }

def streamStep (s : StreamState) : StreamAction → Option (StreamState × List (StreamEvent φ))
  | .signalPosted seq =>
    match s.client.pc with
    | .attached _ =>
      some ({ s with client := { s.client with queue := s.client.queue ++ [seq] } }, [.signal seq])
    | _ => none
  | .shutdown =>
    match s.client.pc with
    | .attached _ => some ({ s with client := { s.client with pc := .shutdown } }, [])
    | _ => none
  | .write n =>
    match s.client.pc with
    | .request pending =>
      if 0 < n ∧ n ≤ pending.length then
        some ({
          client := { s.client with pc := .ofPending (pending.drop n) }
          server := s.send (pending.take n) }, [.written (pending.take n)])
      else none
    | _ => none
  | .fill n =>
    match s.client.pc, s.client.reader.avail with
    | .response, [] =>
      if 0 < n ∧ n ≤ s.server.out.bytes.length then
        some ({
          client := { s.client with
            reader := { s.client.reader with avail := s.server.out.bytes.take n } }
          server := { s.server with
            out := { s.server.out with bytes := s.server.out.bytes.drop n } } }, [])
      else none
    | _, _ => none
  | .scan =>
    match s.client.pc, s.client.reader.avail with
    | .response, _ :: _ =>
      match s.client.reader.scan newline with
      | (none, reader) => some ({ s with client := { s.client with reader := reader } }, [])
      | (some line, reader) =>
        some ({ s with client := { s.client with reader := reader } }.readResponse sj line, [])
    | _, _ => none
  | .eof =>
    match s.client.pc, s.client.reader.avail, s.server.out.bytes, s.server.out.closed with
    | .response, [], [], true => some (s.readResponse sj s.client.reader.line, [])
    | _, _, _, _ => none
  | .recv =>
    match s.client.writer, s.client.queue, s.client.pc with
    | .recv, seq :: queue, _ =>
      some ({ s with client := { s.client with
        queue := queue
        writer := .writing (sj.toWriter (postedNotification seq) ++ [newline]) } }, [])
    | .recv, [], .shutdown =>
      some ({
        client := { s.client with writer := .done }
        server := { s.server with inp := { s.server.inp with closed := true } } }, [])
    | _, _, _ => none
  | .writeTask n =>
    match s.client.writer with
    | .writing pending =>
      if 0 < n ∧ n ≤ pending.length then
        some ({
          client := { s.client with writer := .ofPending (pending.drop n) }
          server := s.send (pending.take n) }, [.written (pending.take n)])
      else none
    | _ => none
  | .join =>
    match s.client.pc, s.client.writer with
    | .shutdown, .done => some ({ s with client := { s.client with pc := .returned } }, [])
    | _, _ => none
  | .server a =>
    (JsonServer.step sj cfg s.server a).map fun r => ({ s with server := r.1 }, r.2.map .server)

def streamMachine : Machine StreamState StreamAction (StreamEvent φ) where
  step := streamStep sj cfg

/-- Connected, with the attach request about to be written. -/
def StreamState.start (name : String) : StreamState where
  client :=
    { pc := .request (sj.toWriter (attachRequest name) ++ [newline])
      reader := .empty
      queue := []
      writer := .absent }
  server :=
    { inp := { bytes := [], closed := false }
      out := { bytes := [], closed := false }
      reader := .empty
      pc := .reading
      postedCalls := 0 }

end Step

/-! ### What a log says -/

section Log

variable (log ev : List (StreamEvent φ))

/-- The calls of `signal_posted`. -/
def signals : List (StreamEvent φ) → List UInt64 :=
  List.filterMap fun
    | .signal seq => some seq
    | _ => none

/-- What the server has shown. -/
def served : List (StreamEvent φ) → List (ServeEvent φ) :=
  List.filterMap fun
    | .server e => some e
    | _ => none

/-- What the client has written. -/
def written : List (StreamEvent φ) → List UInt8 :=
  List.flatMap fun
    | .written bytes => bytes
    | _ => []

@[simp] theorem signals_append : signals (log ++ ev) = signals log ++ signals ev :=
  List.filterMap_append

@[simp] theorem served_append : served (log ++ ev) = served log ++ served ev :=
  List.filterMap_append

@[simp] theorem written_append : written (log ++ ev) = written log ++ written ev :=
  List.flatMap_append

@[simp] theorem signals_server (evs : List (ServeEvent φ)) :
    signals (evs.map StreamEvent.server) = [] := by
  simp [signals]

@[simp] theorem served_server (evs : List (ServeEvent φ)) :
    served (evs.map StreamEvent.server) = evs := by
  simp [served]

@[simp] theorem written_server (evs : List (ServeEvent φ)) :
    written (evs.map StreamEvent.server) = [] := by
  simp [written]

end Log

/-! ### The lines of a client -/

section Lines

variable {sj : SerdeJson φ} (hl : sj.OneLine) (cfg : RingConfig)

/-- The response to `attach`. -/
def attachResponse : Json String φ :=
  response (.num (.ofU64 1))
    (AttachInfo.mk cfg.numSlots.toUInt32 cfg.slotSize.toUInt32).serialize

/-- All that the client sends. -/
noncomputable def clientLines (name : String) (seqs : List UInt64) : List TextLine :=
  hl.line (attachRequest name) :: seqs.map fun seq => hl.line (postedNotification seq)

variable (sj) in
/-- What the server is to make of it. -/
def expected (name : String) (seqs : List UInt64) : List (ServeEvent φ) :=
  .handled (sj.toWriter (attachRequest name)) (.attach name (some (attachResponse cfg))) ::
    seqs.flatMap fun seq => [.handled (sj.toWriter (postedNotification seq)) .posted, .unpark]

theorem unparks_expected (name : String) (seqs : List UInt64) :
    (expected sj cfg name seqs).countP ServeEvent.isUnpark = seqs.length := by
  rw [expected, List.countP_cons_of_neg (by simp [ServeEvent.isUnpark]), List.countP_flatMap]
  simp [ServeEvent.isUnpark, Function.comp_def]

variable {cfg} (hd : sj.Documented)
include hd

theorem handled_attach (name : String) : (hl.line (attachRequest name)).handled sj cfg =
    .attach name (some (attachResponse cfg)) := by
  rw [TextLine.handled, hl.line_trimmed]
  exact line_attachRequest hd cfg name

theorem handled_posted (seq : UInt64) :
    (hl.line (postedNotification seq)).handled sj cfg = .posted := by
  rw [TextLine.handled, hl.line_trimmed, JsonServer.line, hd.roundTrip _ (by
    simp [postedNotification, Json.within])]
  simp [postedNotification, Json.map, Json.mapFields, Incoming.deserialize, Json.fieldOnce,
    Json.asString, JsonServer.handle]

theorem reply_posted (seq : UInt64) : (hl.line (postedNotification seq)).reply sj cfg = [] := by
  rw [TextLine.reply, handled_posted hl hd]
  rfl

theorem shown_clientLines (name : String) (seqs : List UInt64) :
    (clientLines hl name seqs).flatMap (TextLine.shown sj cfg) = expected sj cfg name seqs := by
  have hposted : ∀ seq, (hl.line (postedNotification seq)).shown sj cfg =
      [.handled (sj.toWriter (postedNotification seq)) .posted, .unpark] := by
    intro seq
    rw [TextLine.shown, handled_posted hl hd, hl.line_trimmed]
    rfl
  have hattach : (hl.line (attachRequest name)).shown sj cfg =
      [.handled (sj.toWriter (attachRequest name)) (.attach name (some (attachResponse cfg)))] := by
    rw [TextLine.shown, handled_attach hl hd, hl.line_trimmed]
    rfl
  rw [clientLines, List.flatMap_cons, hattach, List.flatMap_map]
  simp only [hposted]
  rfl

/-- Only `attach` is answered. -/
theorem replies_clientLines (name : String) (seqs : List UInt64) :
    (clientLines hl name seqs).flatMap (TextLine.reply sj cfg) =
      joinLines newline [sj.toWriter (attachResponse cfg)] := by
  have hattach : (hl.line (attachRequest name)).reply sj cfg =
      sj.toWriter (attachResponse cfg) ++ [newline] := by
    rw [TextLine.reply, handled_attach hl hd]
    rfl
  rw [clientLines, List.flatMap_cons, hattach, List.flatMap_map]
  simp [reply_posted hl hd]

end Lines

/-! ### The invariant of the stream -/

@[simp] theorem ClientPc.pending_ofPending (bytes : List UInt8) :
    (ClientPc.ofPending bytes).pending = bytes := by
  cases bytes <;> rfl

@[simp] theorem WriterPc.pending_ofPending (bytes : List UInt8) :
    (WriterPc.ofPending bytes).pending = bytes := by
  cases bytes <;> rfl

@[simp] theorem ClientPc.pending_request (bytes : List UInt8) :
    (ClientPc.request bytes).pending = bytes := rfl

@[simp] theorem WriterPc.pending_writing (bytes : List UInt8) :
    (WriterPc.writing bytes).pending = bytes := rfl

/-- The writer task is there, and has something to write when it writes. -/
def WriterPc.running : WriterPc → Prop
  | .recv => True
  | .writing pending => pending ≠ []
  | .absent | .done => False

theorem WriterPc.running_ofPending (bytes : List UInt8) : (WriterPc.ofPending bytes).running := by
  cases bytes with
  | nil => trivial
  | cons b bs => exact List.cons_ne_nil b bs

section Stream

variable (sj : SerdeJson φ)

/-- What the client still has to put on the wire. -/
def ClientState.unsent (c : ClientState) : List UInt8 :=
  c.pc.pending ++ c.writer.pending ++
    c.queue.flatMap fun seq => sj.toWriter (postedNotification seq) ++ [newline]

theorem ClientState.unsent_reader (c : ClientState) (reader : LineReader UInt8) :
    ClientState.unsent sj { c with reader := reader } = c.unsent sj := rfl

/-- Where the client, its writer task and its end of the wire stand to each other. -/
def Phase (c : ClientState) (closed : Bool) (seqs : List UInt64) : Prop :=
  match c.pc with
  | .request pending =>
    pending ≠ [] ∧ seqs = [] ∧ c.queue = [] ∧ c.writer = .absent ∧ closed = false
  | .response => seqs = [] ∧ c.queue = [] ∧ c.writer = .absent ∧ closed = false
  | .attached _ => c.writer.running ∧ closed = false
  | .shutdown =>
    (c.writer.running ∧ closed = false) ∨ (c.writer = .done ∧ c.queue = [] ∧ closed = true)
  | .returned => c.writer = .done ∧ c.queue = [] ∧ closed = true
  | .failed => False

/-- `attach` has not returned. -/
def ClientPc.attaching : ClientPc → Bool
  | .request _ | .response => true
  | _ => false

/-- `attach` has returned a client. -/
def ClientPc.begun : ClientPc → Bool
  | .attached _ | .shutdown | .returned => true
  | _ => false

theorem ClientPc.begun_ofPending (bytes : List UInt8) :
    (ClientPc.ofPending bytes).begun = false := by
  cases bytes <;> rfl

theorem ClientPc.begun_attached {pc : ClientPc} {info : AttachInfo} (h : pc = .attached info) :
    pc.begun = true := by
  rw [h]
  rfl

variable {sj} (hl : sj.OneLine) (cfg : RingConfig)

structure Streaming (name : String) (s : StreamState) (log : List (StreamEvent φ))
    (taken : List UInt8) (done todo : List TextLine) : Prop where
  lines : done ++ todo = clientLines hl name (signals log)
  serving : Serving sj cfg s.server (served log) (s.client.unsent sj) taken done todo
  sent : written log ++ s.client.unsent sj =
    joinLines newline ((clientLines hl name (signals log)).map TextLine.bytes)
  phase : Phase s.client s.server.inp.closed (signals log)
  reader : s.client.pc.attaching = true →
    taken = s.client.reader.line ++ s.client.reader.avail ∧ newline ∉ s.client.reader.line
  begun : s.client.pc.begun = true → served log ≠ []
  geometry : ∀ info, s.client.pc = .attached info →
    info = ⟨cfg.numSlots.toUInt32, cfg.slotSize.toUInt32⟩

def ClientPc.left : ClientPc → Nat
  | .request _ | .response => 3
  | .attached _ => 2
  | .shutdown => 1
  | .returned | .failed => 0

def WriterPc.left : WriterPc → Nat
  | .done => 0
  | .absent | .recv | .writing _ => 1

@[simp] theorem ClientPc.left_shutdown : ClientPc.shutdown.left = 1 := rfl

@[simp] theorem ClientPc.left_returned : ClientPc.returned.left = 0 := rfl

@[simp] theorem WriterPc.left_done : WriterPc.done.left = 0 := rfl

variable (sj) in
/-- What is left to do when the caller posts no more. -/
def StreamState.work (s : StreamState) (todo : List TextLine) : Nat :=
  7 * (s.client.unsent sj).length + s.client.queue.length + s.server.work sj cfg todo +
    s.client.reader.avail.length + s.client.pc.left + s.client.writer.left

namespace Streaming

variable {hl cfg} {name : String} {s s' : StreamState} {log ev : List (StreamEvent φ)}
  {taken : List UInt8} {done todo : List TextLine}

theorem start (name : String) : Streaming hl cfg name (.start sj name) [] [] []
    [hl.line (attachRequest name)] where
  lines := rfl
  serving := by
    refine ⟨?_, nofun, rfl, rfl, rfl, nofun, nofun, fun _ => rfl⟩
    have hline : ∀ m ∈ [(hl.line (attachRequest name)).bytes], newline ∉ m := by
      intro m hm
      rw [List.mem_singleton.mp hm]
      exact newline_not_mem_utf8 (hl.line (attachRequest name)).oneLine
    have hempty := LineReader.Reads.empty hline
    rw [joinLines_cons, joinLines_nil, hl.line_bytes] at hempty
    simpa [StreamState.start, ClientState.unsent, ClientPc.pending, WriterPc.pending, hl.line_bytes]
      using hempty
  sent := by
    simp [StreamState.start, ClientState.unsent, ClientPc.pending, WriterPc.pending, written,
      clientLines, signals, hl.line_bytes]
  phase := ⟨by simp, rfl, rfl, rfl, rfl⟩
  reader := fun _ => ⟨rfl, List.not_mem_nil⟩
  begun := nofun
  geometry := nofun

/-- A step that shows nothing and leaves the unsent bytes, the server's side and the replies
read as they are. -/
theorem quiet {c : ClientState} (h : Streaming hl cfg name s log taken done todo)
    (hunsent : c.unsent sj = s.client.unsent sj)
    (hphase : Phase c s.server.inp.closed (signals log))
    (hreader : c.pc.attaching = true → taken = c.reader.line ++ c.reader.avail ∧
      newline ∉ c.reader.line) (hbegun : c.pc.begun = true → served log ≠ [])
    (hgeometry : ∀ info, c.pc = .attached info →
      info = ⟨cfg.numSlots.toUInt32, cfg.slotSize.toUInt32⟩) :
    Streaming hl cfg name { s with client := c } (log ++ []) taken done todo where
  lines := by simpa using h.lines
  serving := by simpa [hunsent] using h.serving
  sent := by simpa [hunsent] using h.sent
  phase := by simpa using hphase
  reader := hreader
  begun := by simpa using hbegun
  geometry := hgeometry

/-- The client writes some of what it has to. -/
theorem feed {c : ClientState} {chunk : List UInt8}
    (h : Streaming hl cfg name s log taken done todo) (hopen : s.server.inp.closed = false)
    (hunsent : s.client.unsent sj = chunk ++ c.unsent sj)
    (hphase : Phase c false (signals log))
    (hreader : c.pc.attaching = true → taken = c.reader.line ++ c.reader.avail ∧
      newline ∉ c.reader.line) (hbegun : c.pc.begun = true → served log ≠ [])
    (hgeometry : ∀ info, c.pc = .attached info →
      info = ⟨cfg.numSlots.toUInt32, cfg.slotSize.toUInt32⟩) :
    Streaming hl cfg name { client := c, server := s.send chunk } (log ++ [.written chunk]) taken
      done todo where
  lines := by simpa [signals] using h.lines
  serving := by
    have hserving := h.serving
    rw [hunsent] at hserving
    simpa [served, StreamState.send] using hserving.feed hopen
  sent := by
    have hsent := h.sent
    rw [hunsent] at hsent
    simpa [signals, written] using hsent
  phase := by simpa [StreamState.send, hopen, signals] using hphase
  reader := hreader
  begun := by simpa [served] using hbegun
  geometry := hgeometry

/-- A byte in the socket is less work than a byte to be written. -/
theorem feed_work {c : ClientState} {chunk : List UInt8} (hchunk : 0 < chunk.length)
    (hunsent : s.client.unsent sj = chunk ++ c.unsent sj) (hqueue : c.queue = s.client.queue)
    (hreader : c.reader = s.client.reader) (hpc : c.pc.left = s.client.pc.left)
    (hwriter : c.writer.left = s.client.writer.left) :
    StreamState.work sj cfg { client := c, server := s.send chunk } todo + 1 ≤
      s.work sj cfg todo := by
  have hlen := congrArg List.length hunsent
  rw [List.length_append] at hlen
  simp only [StreamState.work, ServeState.work, StreamState.send, List.length_append,
    hqueue, hreader, hpc, hwriter]
  omega

/-- The client's reader in `attach`. -/
theorem replyReads (hd : sj.Documented) (h : Streaming hl cfg name s log taken done todo)
    (hpc : s.client.pc = .response) :
    s.client.reader.Reads newline
      (s.server.out.bytes ++ (s.server.pc.pending ++ todo.flatMap (TextLine.reply sj cfg)))
      [sj.toWriter (attachResponse cfg)] := by
  obtain ⟨htaken, hline⟩ := h.reader (by rw [hpc]; rfl)
  refine ⟨hline, ?_, ?_⟩
  · have hwrote := h.serving.wrote
    rw [htaken] at hwrote
    rw [← replies_clientLines hl hd name (signals log), ← h.lines, List.flatMap_append, ← hwrote]
    simp
  · rintro l hm
    rw [List.mem_singleton.mp hm]
    obtain ⟨t, ht, hone, -⟩ := hl.text (attachResponse cfg)
    rw [ht]
    exact newline_not_mem_utf8 hone

theorem readResponse_line (hl : sj.OneLine) (hd : sj.Documented) (s : StreamState) :
    s.readResponse sj (sj.toWriter (attachResponse cfg) ++ [newline]) =
      { s with client := { s.client with
        pc := .attached ⟨cfg.numSlots.toUInt32, cfg.slotSize.toUInt32⟩, writer := .recv } } := by
  obtain ⟨t, ht, -, htrim, -⟩ := hl.text (attachResponse cfg)
  have hne : t ++ "\n" ≠ "" := by simp
  rw [ht, ← utf8_newline, StreamState.readResponse, fromUtf8_utf8]
  simp only [if_neg hne, trimEnd_newline, htrim, ← ht]
  rw [attachResponse, readResponse_response hd]

/-- What a call of `signal_posted` adds to the work. -/
def signalCost (sj : SerdeJson φ) (seq : UInt64) : Nat :=
  7 * (sj.toWriter (postedNotification seq) ++ [newline]).length + 2

theorem signal (h : Streaming hl cfg name s log taken done todo) (hd : sj.Documented)
    {info : AttachInfo} (hpc : s.client.pc = .attached info) (seq : UInt64) :
    Streaming hl cfg name { s with client := { s.client with queue := s.client.queue ++ [seq] } }
      (log ++ [.signal seq]) taken done (todo ++ [hl.line (postedNotification seq)]) ∧
    StreamState.work sj cfg { s with client := { s.client with queue := s.client.queue ++ [seq] } }
        (todo ++ [hl.line (postedNotification seq)]) + 1 ≤
          s.work sj cfg todo + signalCost sj seq := by
  have hphase := h.phase
  simp only [Phase, hpc] at hphase
  have hunsent : ClientState.unsent sj { s.client with queue := s.client.queue ++ [seq] } =
      s.client.unsent sj ++ (sj.toWriter (postedNotification seq) ++ [newline]) := by
    simp [ClientState.unsent]
  have hlines : clientLines hl name (signals (log ++ [.signal seq])) =
      clientLines hl name (signals log) ++ [hl.line (postedNotification seq)] := by
    simp [signals, clientLines]
  have hbegun := h.begun (ClientPc.begun_attached hpc)
  refine ⟨⟨?_, ?_, ?_, ?_, ?_, fun _ => by simpa [served] using hbegun, h.geometry⟩, ?_⟩
  · rw [hlines, ← h.lines, List.append_assoc]
  · have hserving := h.serving.send hphase.2 (hl.line (postedNotification seq))
    rw [hl.line_bytes] at hserving
    rw [hunsent]
    simpa [served] using hserving
  · rw [hlines, List.map_append, joinLines_append, ← h.sent, hunsent]
    simp [written, hl.line_bytes]
  · simpa [Phase, hpc] using hphase
  · intro hatt
    simp only [hpc] at hatt
    cases hatt
  · simp only [StreamState.work, hunsent, ServeState.work, signalCost, List.length_append,
      List.map_append, List.sum_append, List.map_cons, List.map_nil, reply_posted hl hd,
      List.length_nil, List.sum_cons, List.sum_nil, List.length_cons]
    omega

theorem write (h : Streaming hl cfg name s log taken done todo) {n : Nat}
    (hs : streamStep sj cfg s (.write n) = some (s', ev)) :
    Streaming hl cfg name s' (log ++ ev) taken done todo ∧ signals ev = [] ∧
      s'.work sj cfg todo + 1 ≤ s.work sj cfg todo := by
  simp only [streamStep] at hs
  split at hs
  · rename_i pending hpc
    split at hs
    · rename_i hn
      cases hs
      have hphase := h.phase
      simp only [Phase, hpc] at hphase
      obtain ⟨-, hseqs, hqueue, hwriter, hopen⟩ := hphase
      have hunsent : s.client.unsent sj = pending.take n ++
          ClientState.unsent sj { s.client with pc := .ofPending (pending.drop n) } := by
        simp only [ClientState.unsent, hpc, ClientPc.pending_ofPending, ClientPc.pending_request]
        rw [← List.append_assoc, ← List.append_assoc, List.take_append_drop]
      have hbegun := ClientPc.begun_ofPending (pending.drop n)
      refine ⟨h.feed hopen hunsent ?_ (fun _ => h.reader (by rw [hpc]; rfl)) (fun hb => ?_)
        (fun info hc => ?_), rfl, ?_⟩
      · cases hd : pending.drop n with
        | nil => exact ⟨hseqs, hqueue, hwriter, rfl⟩
        | cons b bs => exact ⟨List.cons_ne_nil b bs, hseqs, hqueue, hwriter, rfl⟩
      · cases hbegun.symm.trans hb
      · cases hbegun.symm.trans (ClientPc.begun_attached hc)
      · have hleft : (ClientPc.ofPending (pending.drop n)).left = s.client.pc.left := by
          rw [hpc]
          cases pending.drop n <;> rfl
        have htake : 0 < (pending.take n).length := by
          rw [List.length_take]
          omega
        exact feed_work htake hunsent rfl rfl hleft rfl
    · cases hs
  · cases hs

theorem writeTask (h : Streaming hl cfg name s log taken done todo) {n : Nat}
    (hs : streamStep sj cfg s (.writeTask n) = some (s', ev)) :
    Streaming hl cfg name s' (log ++ ev) taken done todo ∧ signals ev = [] ∧
      s'.work sj cfg todo + 1 ≤ s.work sj cfg todo := by
  simp only [streamStep] at hs
  split at hs
  · rename_i pending hw
    split at hs
    · rename_i hn
      cases hs
      have hphase := h.phase
      have hrun := WriterPc.running_ofPending (pending.drop n)
      have hopen : s.server.inp.closed = false ∧ s.client.pc.attaching = false ∧
          Phase { s.client with writer := .ofPending (pending.drop n) } false (signals log) := by
        cases hpc : s.client.pc with
        | attached info =>
          simp only [Phase, hpc] at hphase
          exact ⟨hphase.2, rfl, by simpa [Phase, hpc] using hrun⟩
        | shutdown =>
          simp only [Phase, hpc, hw] at hphase
          rcases hphase with ⟨-, hc⟩ | ⟨hd, -⟩
          · exact ⟨hc, rfl, by simp [Phase, hpc, hrun]⟩
          · cases hd
        | request p =>
          simp only [Phase, hpc, hw] at hphase
          cases hphase.2.2.2.1
        | response =>
          simp only [Phase, hpc, hw] at hphase
          cases hphase.2.2.1
        | returned =>
          simp only [Phase, hpc, hw] at hphase
          cases hphase.1
        | failed =>
          simp only [Phase, hpc] at hphase
      obtain ⟨hopen, hatt, hphase'⟩ := hopen
      have hpend : s.client.pc.pending = [] := by
        generalize s.client.pc = pc at hatt
        cases pc <;> first | rfl | cases hatt
      have hunsent : s.client.unsent sj = pending.take n ++
          ClientState.unsent sj { s.client with writer := .ofPending (pending.drop n) } := by
        simp only [ClientState.unsent, hpend, hw, WriterPc.pending_ofPending,
          WriterPc.pending_writing, List.nil_append]
        rw [← List.append_assoc, List.take_append_drop]
      refine ⟨h.feed hopen hunsent hphase' (fun ha => ?_) h.begun h.geometry, rfl, ?_⟩
      · rw [show s.client.pc.attaching = true from ha] at hatt
        cases hatt
      · have hleft : (WriterPc.ofPending (pending.drop n)).left = s.client.writer.left := by
          rw [hw]
          cases pending.drop n <;> rfl
        have htake : 0 < (pending.take n).length := by
          rw [List.length_take]
          omega
        exact feed_work htake hunsent rfl rfl rfl hleft
    · cases hs
  · cases hs

theorem read (hd : sj.Documented) (h : Streaming hl cfg name s log taken done todo)
    {a : StreamAction} (ha : a = .scan ∨ a = .eof ∨ ∃ n, a = .fill n)
    (hs : streamStep sj cfg s a = some (s', ev)) :
    ∃ taken', Streaming hl cfg name s' (log ++ ev) taken' done todo ∧ signals ev = [] ∧
      s'.work sj cfg todo + 1 ≤ s.work sj cfg todo := by
  rcases ha with rfl | rfl | ⟨n, rfl⟩
  · simp only [streamStep] at hs
    split at hs
    · rename_i b bs hpc hav
      have hphase := h.phase
      simp only [Phase, hpc] at hphase
      obtain ⟨htaken, hline⟩ := h.reader (by rw [hpc]; rfl)
      split at hs
      · rename_i reader hscan
        cases hs
        obtain ⟨hnot, rfl⟩ := LineReader.scan_none hscan
        refine ⟨taken, h.quiet rfl (by simpa [Phase, hpc] using hphase) (fun _ => ⟨?_, ?_⟩) h.begun
          h.geometry, rfl, ?_⟩
        · simpa using htaken
        · exact fun hm => (List.mem_append.mp hm).elim hline hnot
        · simp only [StreamState.work, ClientState.unsent_reader, hav, List.length_nil,
            List.length_cons]
          omega
      · rename_i full reader hscan
        cases hs
        obtain ⟨l, tl, hcons, rfl, hreads⟩ := (h.replyReads hd hpc).scan_some hscan
        obtain ⟨rfl, rfl⟩ := List.cons.inj hcons
        obtain ⟨-, hqueue, hwriter, hopen⟩ := hphase
        rw [readResponse_line hl hd]
        refine ⟨taken, h.quiet ?_ ?_ nofun (fun _ => ?_) (fun info hc => ?_), rfl, ?_⟩
        · simp [ClientState.unsent, hpc, hwriter, ClientPc.pending, WriterPc.pending]
        · exact ⟨trivial, hopen⟩
        · refine h.serving.log_ne_nil ?_
          rw [htaken, hav]
          simp
        · cases hc
          rfl
        · obtain ⟨a, _, _, hbytes, _⟩ := LineReader.scan_some hscan
          simp [StreamState.work, ClientState.unsent, hpc, hwriter, ClientPc.pending,
            WriterPc.pending, ClientPc.left, WriterPc.left, hbytes]
          omega
    · cases hs
  · -- the server only closes its end after the client has closed its own
    simp only [streamStep] at hs
    split at hs
    · rename_i hpc hav hout hclosed
      have hphase := h.phase
      simp only [Phase, hpc] at hphase
      cases hr : s.server.pc.running with
      | true =>
        rw [h.serving.opened hr] at hclosed
        cases hclosed
      | false =>
        obtain ⟨ok, hok⟩ : ∃ ok, s.server.pc = .returned ok := by
          generalize s.server.pc = pc at hr
          cases pc with
          | returned ok => exact ⟨ok, rfl⟩
          | _ => cases hr
        have hinp := (h.serving.returned ok hok).2.2
        rw [hinp] at hphase
        cases hphase.2.2.2
    · cases hs
  · simp only [streamStep] at hs
    split at hs
    · rename_i hpc hav
      split at hs
      · rename_i hn
        cases hs
        have hphase := h.phase
        simp only [Phase, hpc] at hphase
        obtain ⟨htaken, hline⟩ := h.reader (by rw [hpc]; rfl)
        refine ⟨taken ++ s.server.out.bytes.take n, ⟨?_, ?_, ?_, ?_, fun _ => ⟨?_, hline⟩,
          by simpa using h.begun, h.geometry⟩, rfl, ?_⟩
        · simpa using h.lines
        · simpa [ClientState.unsent] using h.serving.take n
        · simpa [ClientState.unsent] using h.sent
        · simpa [Phase, hpc] using hphase
        · rw [htaken, hav, List.append_nil]
        · simp only [StreamState.work, ServeState.work, ClientState.unsent_reader, hav,
            List.length_drop, List.length_take, List.length_nil]
          omega
      · cases hs
    · cases hs

theorem recv (h : Streaming hl cfg name s log taken done todo)
    (hs : streamStep sj cfg s .recv = some (s', ev)) :
    Streaming hl cfg name s' (log ++ ev) taken done todo ∧ signals ev = [] ∧
      s'.work sj cfg todo + 1 ≤ s.work sj cfg todo := by
  have hphase := h.phase
  simp only [streamStep] at hs
  split at hs
  · rename_i seq queue hw hq
    cases hs
    have hunsent : ClientState.unsent sj { s.client with
        queue := queue
        writer := .writing (sj.toWriter (postedNotification seq) ++ [newline]) } =
        s.client.unsent sj := by
      simp [ClientState.unsent, hw, hq, WriterPc.pending]
    refine ⟨h.quiet hunsent ?_ h.reader h.begun h.geometry, rfl, ?_⟩
    · cases hpc : s.client.pc with
      | attached info =>
        simp only [Phase, hpc] at hphase ⊢
        exact ⟨by simp [WriterPc.running], hphase.2⟩
      | shutdown =>
        simp only [Phase, hpc, hw] at hphase ⊢
        rcases hphase with ⟨-, hc⟩ | ⟨hd, -⟩
        · exact .inl ⟨by simp [WriterPc.running], hc⟩
        · cases hd
      | request | response =>
        simp [Phase, hpc, hw] at hphase
      | returned =>
        simp [Phase, hpc, hw] at hphase
      | failed => simp [Phase, hpc] at hphase
    · have hleft : (WriterPc.writing (sj.toWriter (postedNotification seq) ++ [newline])).left =
          s.client.writer.left := by rw [hw]; rfl
      simp only [StreamState.work, hunsent, hq, hleft, List.length_cons]
      omega
  · rename_i hw hq hpc
    cases hs
    simp only [Phase, hpc, hw] at hphase
    have hunsent : s.client.unsent sj = [] := by
      simp [ClientState.unsent, hpc, hw, hq, ClientPc.pending, WriterPc.pending]
    have hunsent' : ClientState.unsent sj { s.client with writer := .done } = [] := by
      simp [ClientState.unsent, hpc, hq, ClientPc.pending, WriterPc.pending]
    have hserving := h.serving
    have hsent := h.sent
    rw [hunsent] at hserving hsent
    refine ⟨⟨?_, ?_, ?_, ?_, ?_, by simpa using h.begun, h.geometry⟩, rfl, ?_⟩
    · simpa using h.lines
    · simpa [hunsent'] using hserving.close
    · simpa [hunsent'] using hsent
    · simp only [Phase, hpc]
      exact .inr (by simp [hq])
    · intro ha
      simp only [hpc] at ha
      cases ha
    · have hleft : s.client.writer.left = 1 := by rw [hw]; rfl
      simp only [StreamState.work, ServeState.work, hunsent', hunsent, hleft, WriterPc.left_done]
      omega
  · cases hs

/-- A step of the system, what it adds to the work and what it leaves of it. -/
theorem step (hd : sj.Documented) (h : Streaming hl cfg name s log taken done todo)
    {a : StreamAction} (hs : streamStep sj cfg s a = some (s', ev)) :
    ∃ taken' done' todo', Streaming hl cfg name s' (log ++ ev) taken' done' todo' ∧
      s'.work sj cfg todo' + 1 ≤ s.work sj cfg todo + ((signals ev).map (signalCost sj)).sum := by
  cases a with
  | signalPosted seq =>
    simp only [streamStep] at hs
    split at hs
    · rename_i info hpc
      cases hs
      obtain ⟨hstream, hwork⟩ := h.signal hd hpc seq
      exact ⟨taken, done, _, hstream, by simpa [signals] using hwork⟩
    · cases hs
  | shutdown =>
    simp only [streamStep] at hs
    split at hs
    · rename_i info hpc
      cases hs
      have hphase := h.phase
      simp only [Phase, hpc] at hphase
      have hunsent : ClientState.unsent sj { s.client with pc := .shutdown } =
          s.client.unsent sj := by
        simp [ClientState.unsent, hpc, ClientPc.pending]
      refine ⟨taken, done, todo, h.quiet hunsent (.inl hphase) nofun
        (fun _ => h.begun (ClientPc.begun_attached hpc)) nofun, ?_⟩
      have hleft : s.client.pc.left = 2 := by rw [hpc]; rfl
      simp only [StreamState.work, hunsent, hleft, ClientPc.left_shutdown]
      omega
    · cases hs
  | write n =>
    obtain ⟨hstream, hsig, hwork⟩ := h.write hs
    exact ⟨taken, done, todo, hstream, by rw [hsig]; exact hwork⟩
  | writeTask n =>
    obtain ⟨hstream, hsig, hwork⟩ := h.writeTask hs
    exact ⟨taken, done, todo, hstream, by rw [hsig]; exact hwork⟩
  | scan =>
    obtain ⟨taken', hstream, hsig, hwork⟩ := h.read hd (.inl rfl) hs
    exact ⟨taken', done, todo, hstream, by rw [hsig]; exact hwork⟩
  | eof =>
    obtain ⟨taken', hstream, hsig, hwork⟩ := h.read hd (.inr (.inl rfl)) hs
    exact ⟨taken', done, todo, hstream, by rw [hsig]; exact hwork⟩
  | fill n =>
    obtain ⟨taken', hstream, hsig, hwork⟩ := h.read hd (.inr (.inr ⟨n, rfl⟩)) hs
    exact ⟨taken', done, todo, hstream, by rw [hsig]; exact hwork⟩
  | recv =>
    obtain ⟨hstream, hsig, hwork⟩ := h.recv hs
    exact ⟨taken, done, todo, hstream, by rw [hsig]; exact hwork⟩
  | join =>
    simp only [streamStep] at hs
    split at hs
    · rename_i hpc hw
      cases hs
      have hphase := h.phase
      simp only [Phase, hpc, hw] at hphase
      have hunsent : ClientState.unsent sj { s.client with pc := .returned } =
          s.client.unsent sj := by
        simp [ClientState.unsent, hpc, ClientPc.pending]
      refine ⟨taken, done, todo,
        h.quiet hunsent ?_ nofun (fun _ => h.begun (by rw [hpc]; rfl)) nofun, ?_⟩
      · rcases hphase with ⟨hf, -⟩ | ⟨-, hq, hc⟩
        · cases hf
        · exact ⟨hw, hq, hc⟩
      · have hleft : s.client.pc.left = 1 := by rw [hpc]; rfl
        simp only [StreamState.work, hunsent, hleft, ClientPc.left_returned]
        omega
    · cases hs
  | server a =>
    obtain ⟨⟨srv, sev⟩, hsrv, heq⟩ := Option.map_eq_some_iff.mp hs
    cases heq
    obtain ⟨done', todo', hlines, hserving, hwork⟩ := h.serving.step hsrv
    refine ⟨taken, done', todo', ⟨?_, ?_, ?_, ?_, h.reader, fun hb => ?_, h.geometry⟩, ?_⟩
    · simpa [hlines] using h.lines
    · simpa using hserving
    · simpa using h.sent
    · simpa [JsonServer.step_closed hsrv] using h.phase
    · rw [served_append]
      exact List.append_ne_nil_of_left_ne_nil (h.begun hb) _
    · simp only [StreamState.work]
      omega

theorem run (hl : sj.OneLine) (hd : sj.Documented) {as : List StreamAction}
    (hrun : (streamMachine sj cfg).Run Machine.free (.start sj name) [] as s log) :
    ∃ taken done todo, Streaming hl cfg name s log taken done todo ∧
      as.length + s.work sj cfg todo ≤
        (StreamState.start sj name).work sj cfg [hl.line (attachRequest name)] +
          ((signals log).map (signalCost sj)).sum := by
  induction hrun with
  | nil => exact ⟨[], [], _, start name, by simp [signals]⟩
  | snoc _ _ hs ih =>
    obtain ⟨taken, done, todo, h, hwork⟩ := ih
    obtain ⟨taken', done', todo', h', hless⟩ := h.step hd hs
    refine ⟨taken', done', todo', h', ?_⟩
    rw [List.length_append, List.length_singleton, signals_append, List.map_append,
      List.sum_append]
    omega

theorem server_progress (h : Streaming hl cfg name s log taken done todo)
    (hclosed : s.server.inp.closed = true) (hpc : s.server.pc ≠ .returned true) :
    ∃ a, a.isCall = false ∧ (streamStep sj cfg s a).isSome := by
  obtain ⟨a, ha⟩ := h.serving.progress hclosed hpc
  obtain ⟨r, hr⟩ := Option.isSome_iff_exists.mp ha
  exact ⟨.server a, rfl, by simp [streamStep, hr]⟩

/-- While `attach` waits for its response, the response is on its way. -/
theorem response_progress (hd : sj.Documented) (h : Streaming hl cfg name s log taken done todo)
    (hpc : s.client.pc = .response) : ∃ a, a.isCall = false ∧ (streamStep sj cfg s a).isSome := by
  have hphase := h.phase
  simp only [Phase, hpc] at hphase
  obtain ⟨-, hqueue, hwriter, hopen⟩ := hphase
  have hpcs : ∀ ok, s.server.pc ≠ .returned ok := by
    intro ok hp
    rw [(h.serving.returned ok hp).2.2] at hopen
    cases hopen
  cases ha : s.client.reader.avail with
  | cons b bs =>
    refine ⟨.scan, rfl, ?_⟩
    simp only [streamStep, hpc, ha]
    split <;> rfl
  | nil =>
    cases ho : s.server.out.bytes with
    | cons b bs => exact ⟨.fill 1, rfl, by simp [streamStep, hpc, ha, ho]⟩
    | nil =>
      rcases h.serving.progress_or_waits hpcs with ⟨a, hstep⟩ | ⟨hread, hav, hbytes⟩
      · obtain ⟨r, hr⟩ := Option.isSome_iff_exists.mp hstep
        exact ⟨.server a, rfl, by simp [streamStep, hr]⟩
      · -- the server has read the request, so it has answered it
        have hunsent : s.client.unsent sj = [] := by
          simp [ClientState.unsent, hpc, hqueue, hwriter, ClientPc.pending, WriterPc.pending]
        have hreads := h.serving.reads
        rw [hbytes, hunsent, List.append_nil] at hreads
        obtain rfl := List.map_eq_nil_iff.mp (hreads.eof hav).2
        have hreply := h.replyReads hd hpc
        rw [ho, hread] at hreply
        simpa using (hreply.eof ha).2

theorem writer_progress (hw : s.client.writer.running)
    (hq : s.client.writer = .recv → s.client.queue ≠ [] ∨ s.client.pc = .shutdown) :
    ∃ a, a.isCall = false ∧ (streamStep sj cfg s a).isSome := by
  cases hwr : s.client.writer with
  | absent | done => simp [hwr, WriterPc.running] at hw
  | writing pending =>
    rw [hwr] at hw
    have hlen := List.length_pos_of_ne_nil hw
    exact ⟨.writeTask 1, rfl, by simp [streamStep, hwr, Nat.succ_le_of_lt hlen]⟩
  | recv =>
    refine ⟨.recv, rfl, ?_⟩
    cases hqu : s.client.queue with
    | cons seq queue => simp [streamStep, hwr, hqu]
    | nil =>
      rcases hq hwr with hq | hpc
      · exact absurd hqu hq
      · simp [streamStep, hwr, hqu, hpc]

/-- The writer task can go on with what the client has not sent. -/
theorem unsent_progress (h : Streaming hl cfg name s log taken done todo)
    (hbegun : s.client.pc.begun = true) (hunsent : s.client.unsent sj ≠ []) :
    ∃ a, a.isCall = false ∧ (streamStep sj cfg s a).isSome := by
  have hphase := h.phase
  have hpending : s.client.pc.pending = [] := by
    generalize s.client.pc = pc at hbegun
    cases pc <;> first | rfl | cases hbegun
  have hwriter : s.client.writer.running ∨ (s.client.writer = .done ∧ s.client.queue = []) := by
    cases hpc : s.client.pc with
    | attached info =>
      simp only [Phase, hpc] at hphase
      exact .inl hphase.1
    | shutdown =>
      simp only [Phase, hpc] at hphase
      exact hphase.imp And.left fun hdone => ⟨hdone.1, hdone.2.1⟩
    | returned =>
      simp only [Phase, hpc] at hphase
      exact .inr ⟨hphase.1, hphase.2.1⟩
    | request | response | failed =>
      rw [hpc] at hbegun
      cases hbegun
  rcases hwriter with hrunning | ⟨hdone, hqueue⟩
  · refine writer_progress hrunning fun hrecv => .inl fun hqueue => hunsent ?_
    simp [ClientState.unsent, hpending, hrecv, hqueue, WriterPc.pending]
  · simp [ClientState.unsent, hpending, hdone, hqueue, WriterPc.pending] at hunsent

/-- Until the server has handled all that the client has to say, somebody can go on. -/
theorem todo_progress (h : Streaming hl cfg name s log taken done todo)
    (hbegun : s.client.pc.begun = true) (htodo : todo ≠ []) :
    ∃ a, a.isCall = false ∧ (streamStep sj cfg s a).isSome := by
  by_cases hunsent : s.client.unsent sj = []
  · have hpcs : ∀ ok, s.server.pc ≠ .returned ok :=
      fun ok hp => htodo (h.serving.returned ok hp).2.1
    rcases h.serving.progress_or_waits hpcs with ⟨b, hb⟩ | ⟨-, hav, hbytes⟩
    · obtain ⟨r, hr⟩ := Option.isSome_iff_exists.mp hb
      exact ⟨.server b, rfl, by simp [streamStep, hr]⟩
    · have hreads := h.serving.reads
      rw [hbytes, hunsent, List.append_nil] at hreads
      exact absurd (List.map_eq_nil_iff.mp (hreads.eof hav).2) htodo
  · exact h.unsent_progress hbegun hunsent

/-- Until both sides have returned somebody can go on, without the caller as long as the server has
something to handle. -/
theorem progress (hd : sj.Documented) (h : Streaming hl cfg name s log taken done todo)
    (htodo : ∀ info, s.client.pc = .attached info → todo ≠ [])
    (hend : ¬ (s.client.pc = .returned ∧ s.server.pc = .returned true)) :
    ∃ a, a.isCall = false ∧ (streamStep sj cfg s a).isSome := by
  have hphase := h.phase
  cases hpc : s.client.pc with
  | request pending =>
    simp only [Phase, hpc] at hphase
    have hlen := List.length_pos_of_ne_nil hphase.1
    exact ⟨.write 1, rfl, by simp [streamStep, hpc, Nat.succ_le_of_lt hlen]⟩
  | response => exact h.response_progress hd hpc
  | attached info => exact h.todo_progress (ClientPc.begun_attached hpc) (htodo info hpc)
  | shutdown =>
    simp only [Phase, hpc] at hphase
    rcases hphase with ⟨hw, -⟩ | ⟨hw, -, -⟩
    · exact writer_progress hw fun _ => .inr hpc
    · exact ⟨.join, rfl, by simp [streamStep, hpc, hw]⟩
  | returned =>
    simp only [Phase, hpc] at hphase
    exact h.server_progress hphase.2.2 fun hs => hend ⟨hpc, hs⟩
  | failed => simp [Phase, hpc] at hphase

end Streaming

end Stream

/-- The event that the server shows for `attach`. -/
def attachHandled (sj : SerdeJson φ) (cfg : RingConfig) (name : String) : ServeEvent φ :=
  .handled (sj.toWriter (attachRequest name)) (.attach name (some (attachResponse cfg)))

/-- The stream from one client: the server handles `attach` and then the signals, in the order
of the calls and as they were sent. When `attach` has returned it has been handled and brought the
geometry, and the client can signal what it likes and shut down; what has been signalled goes on
to the server by itself, in a bounded number of steps. When `shutdown` has returned everything is
written, when `serve` has returned everything is handled, and both do return. -/
theorem control_stream {sj : SerdeJson φ} (hd : sj.Documented) (hl : sj.OneLine) (cfg : RingConfig)
    (name : String) : ∃ bound : List UInt64 → Nat, ∀ as s log,
      (streamMachine sj cfg).Run Machine.free (.start sj name) [] as s log →
      s.client.pc ≠ .failed ∧ served log <+: expected sj cfg name (signals log) ∧
      s.server.postedCalls = UInt64.ofNat ((served log).countP ServeEvent.isUnpark) ∧
      (s.client.pc.begun = true → [attachHandled sj cfg name] <+: served log) ∧
      (∀ info, s.client.pc = .attached info →
        info = ⟨cfg.numSlots.toUInt32, cfg.slotSize.toUInt32⟩ ∧
        (∀ seq, ∃ s', streamStep sj cfg s (.signalPosted seq) = some (s', [.signal seq]) ∧
          s'.client.pc = .attached info) ∧
        ∃ s', streamStep sj cfg s .shutdown = some (s', []) ∧ s'.client.pc = .shutdown) ∧
      (s.client.pc = .returned → written log = joinLines newline
        (sj.toWriter (attachRequest name) ::
          (signals log).map fun seq => sj.toWriter (postedNotification seq))) ∧
      (s.server.pc = .returned true → served log = expected sj cfg name (signals log) ∧
        s.server.postedCalls = UInt64.ofNat (signals log).length ∧
        (s.client.pc = .shutdown ∨ s.client.pc = .returned)) ∧
      as.length ≤ bound (signals log) ∧
      ((∃ info, s.client.pc = .attached info ∧ served log = expected sj cfg name (signals log)) ∨
        (s.client.pc = .returned ∧ s.server.pc = .returned true) ∨
        ∃ a, a.isCall = false ∧ (streamStep sj cfg s a).isSome) := by
  refine ⟨fun seqs => (StreamState.start sj name).work sj cfg [hl.line (attachRequest name)] +
    (seqs.map (Streaming.signalCost sj)).sum, fun as s log hrun => ?_⟩
  obtain ⟨taken, done, todo, h, hwork⟩ := Streaming.run hl hd hrun
  have hshown : (clientLines hl name (signals log)).flatMap (TextLine.shown sj cfg) = _ :=
    shown_clientLines hl hd name (signals log)
  rw [← h.lines, List.flatMap_append, ← h.serving.log_eq] at hshown
  have hcalls : s.server.postedCalls =
      UInt64.ofNat ((served log).countP ServeEvent.isUnpark) := by
    rw [h.serving.calls, h.serving.log_eq, unparks_shown]
  have hphase := h.phase
  refine ⟨fun hpc => by simp [Phase, hpc] at hphase, ⟨_, hshown⟩, hcalls, fun hbegun => ?_,
    fun info hpc => ⟨h.geometry info hpc, fun seq => ?_, ?_⟩, fun hpc => ?_, fun hpc => ?_,
    by dsimp only; omega, ?_⟩
  · obtain ⟨e, rest, hserved⟩ := List.exists_cons_of_ne_nil (h.begun hbegun)
    rw [hserved, List.cons_append] at hshown
    rw [hserved, (List.cons.inj hshown).1]
    exact ⟨rest, rfl⟩
  · exact ⟨{ s with client := { s.client with queue := s.client.queue ++ [seq] } },
      by simp [streamStep, hpc], hpc⟩
  · exact ⟨{ s with client := { s.client with pc := .shutdown } }, by simp [streamStep, hpc], rfl⟩
  · simp only [Phase, hpc] at hphase
    have hsent := h.sent
    have hunsent : s.client.unsent sj = [] := by
      simp [ClientState.unsent, hpc, hphase.1, hphase.2.1, ClientPc.pending, WriterPc.pending]
    rw [hunsent, List.append_nil] at hsent
    rw [hsent, clientLines, List.map_cons, List.map_map, hl.line_bytes]
    simp only [Function.comp_def, hl.line_bytes]
  · obtain ⟨-, rfl, hinp⟩ := h.serving.returned true hpc
    rw [List.flatMap_nil, List.append_nil] at hshown
    refine ⟨hshown, ?_, ?_⟩
    · rw [hcalls, hshown, unparks_expected]
    · rw [hinp] at hphase
      cases hcpc : s.client.pc with
      | shutdown => exact .inl rfl
      | returned => exact .inr rfl
      | request | response | attached | failed => simp [Phase, hcpc] at hphase
  · by_cases hatt : ∃ info, s.client.pc = .attached info ∧ todo = []
    · obtain ⟨info, hpc, rfl⟩ := hatt
      rw [List.flatMap_nil, List.append_nil] at hshown
      exact .inl ⟨info, hpc, hshown⟩
    by_cases hend : s.client.pc = .returned ∧ s.server.pc = .returned true
    · exact .inr (.inl hend)
    · exact .inr (.inr (h.progress hd (fun info hpc htodo => hatt ⟨info, hpc, htodo⟩) hend))

/-- An attach request and two signals, written and read in pieces that keep to no line, with the
shutdown before the second signal is written. -/
def wholeStream : List StreamAction :=
  [.write 30, .server (.fill 20), .server .scan, .write 40, .server (.fill 50), .server .scan,
    .server (.write 10), .fill 10, .scan, .server (.write 54), .fill 54, .scan,
    .signalPosted 5, .recv, .signalPosted 6, .writeTask 20, .shutdown, .server (.fill 20),
    .server .scan, .writeTask 35, .recv, .writeTask 55, .server (.fill 60), .server .scan,
    .server .scan, .server (.fill 30), .server .scan, .recv, .join, .server .eof]

theorem wholeStream_exec : ((streamMachine compactJson Presets.SMALL).exec
    (.start compactJson "p\"0\n", []) wholeStream).map (fun c =>
      decide (c.1.client.pc.left = 0 ∧ c.1.server.pc.running = false ∧ signals c.2 = [5, 6])) =
      some true := by
  decide +kernel

theorem control_stream_compact : ∃ s log,
    (streamMachine compactJson Presets.SMALL).Run Machine.free (.start compactJson "p\"0\n") []
      wholeStream s log ∧
    s.client.pc = .returned ∧ s.server.pc = .returned true ∧
    served log = expected compactJson Presets.SMALL "p\"0\n" [5, 6] ∧ s.server.postedCalls = 2 ∧
    written log = joinLines newline [compactJson.toWriter (attachRequest "p\"0\n"),
      compactJson.toWriter (postedNotification 5),
      compactJson.toWriter (postedNotification 6)] := by
  obtain ⟨⟨s, log⟩, hc, hd⟩ := Option.map_eq_some_iff.mp wholeStream_exec
  obtain ⟨hleft, hover, hsignals⟩ := of_decide_eq_true hd
  have hrun := Machine.run_of_exec hc
  obtain ⟨bound, hall⟩ := control_stream compactJson_documented compactJson_oneLine Presets.SMALL
    "p\"0\n"
  obtain ⟨hok, _, _, _, _, hwritten, hserved, _⟩ := hall wholeStream s log hrun
  have hclient : s.client.pc = .returned := by
    cases hpc : s.client.pc with
    | returned => rfl
    | failed => exact absurd hpc hok
    | _ => simp [hpc, ClientPc.left] at hleft
  obtain ⟨ok, hserver⟩ : ∃ ok, s.server.pc = .returned ok := by
    cases hpc : s.server.pc with
    | returned ok => exact ⟨ok, rfl⟩
    | _ => simp [hpc, ServePc.running] at hover
  obtain ⟨_, _, _, h, _⟩ := Streaming.run compactJson_oneLine compactJson_documented hrun
  obtain ⟨rfl, _⟩ := h.serving.returned ok hserver
  obtain ⟨hall, hcalls, _⟩ := hserved hserver
  have hseqs : signals log = [5, 6] := hsignals
  rw [hseqs] at hall hcalls
  have hbytes := hwritten hclient
  rw [hseqs] at hbytes
  exact ⟨s, log, hrun, hclient, hserver, hall, hcalls, hbytes⟩

end ShmMpsc
