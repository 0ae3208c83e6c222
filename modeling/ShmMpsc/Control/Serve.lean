import Mathlib.Data.List.DropRight
import ShmMpsc.Control.JsonRpc
import ShmMpsc.Lib.Lines
import ShmMpsc.Lib.Machine

/-!
# `JsonServer::serve`

The loop of the server over the bytes of a connection: reads and writes of any size, lines
that a buffered reader puts together, and what is done with each.
-/

namespace ShmMpsc

set_option autoImplicit false

variable {φ : Type}

/-! ### Text -/

/-- `char::is_whitespace`. -/
def isWhitespace (c : Char) : Bool :=
  (0x09 ≤ c.toNat && c.toNat ≤ 0x0D) || c.toNat = 0x20 || c.toNat = 0x85 || c.toNat = 0xA0 ||
    c.toNat = 0x1680 || (0x2000 ≤ c.toNat && c.toNat ≤ 0x200A) || c.toNat = 0x2028 ||
    c.toNat = 0x2029 || c.toNat = 0x202F || c.toNat = 0x205F || c.toNat = 0x3000

/-- `str::trim_end`. -/
def trimEnd (s : String) : String := .ofList (s.toList.rdropWhile isWhitespace)

def newline : UInt8 := 10

/-- Compact texts have no white space outside of string literals, and none of it raw that
ends a line. -/
structure SerdeJson.OneLine (sj : SerdeJson φ) : Prop where
  text : ∀ v, ∃ s : String, sj.toWriter v = utf8 s ∧ '\n' ∉ s.toList ∧ trimEnd s = s ∧ s ≠ ""

/-- A line of text, without its end. -/
structure TextLine where
  text : String
  oneLine : '\n' ∉ text.toList
  notBlank : trimEnd text ≠ ""

def TextLine.bytes (l : TextLine) : List UInt8 := utf8 l.text

/-- What `trim_end` leaves. -/
def TextLine.trimmed (l : TextLine) : List UInt8 := utf8 (trimEnd l.text)

theorem SerdeJson.OneLine.exists_line {sj : SerdeJson φ} (h : sj.OneLine) (v : Json String φ) :
    ∃ l : TextLine, l.bytes = sj.toWriter v ∧ l.trimmed = sj.toWriter v := by
  obtain ⟨s, hs, hline, htrim, hne⟩ := h.text v
  exact ⟨⟨s, hline, by rwa [htrim]⟩, hs.symm, by rw [TextLine.trimmed, htrim, hs]⟩

/-- The line of a compact text. -/
noncomputable def SerdeJson.OneLine.line {sj : SerdeJson φ} (h : sj.OneLine) (v : Json String φ) :
    TextLine := (h.exists_line v).choose

theorem SerdeJson.OneLine.line_bytes {sj : SerdeJson φ} (h : sj.OneLine) (v : Json String φ) :
    (h.line v).bytes = sj.toWriter v := (h.exists_line v).choose_spec.1

theorem SerdeJson.OneLine.line_trimmed {sj : SerdeJson φ} (h : sj.OneLine) (v : Json String φ) :
    (h.line v).trimmed = sj.toWriter v := (h.exists_line v).choose_spec.2

/-! ### The connection -/

/-- One direction of a socket: what is under way, and whether the writing end is closed. -/
structure Wire where
  bytes : List UInt8
  closed : Bool

inductive ServePc where
  | reading
  | writing (pending : List UInt8)
  /-- at the end of the stream, or with an error for a line that is not UTF-8 -/
  | returned (ok : Bool)

/-- In a `write_all` until nothing is left. -/
def ServePc.ofPending : List UInt8 → ServePc
  | [] => .reading
  | pending => .writing pending

def ServePc.pending : ServePc → List UInt8
  | .writing pending => pending
  | .reading | .returned _ => []

def ServePc.running : ServePc → Bool
  | .reading | .writing _ => true
  | .returned _ => false

structure ServeState where
  inp : Wire
  out : Wire
  reader : LineReader UInt8
  pc : ServePc
  postedCalls : UInt64

inductive ServeAction where
  /-- `fill_buf` gets `n` bytes -/
  | fill (n : Nat)
  | scan
  /-- `fill_buf` finds the end of the stream -/
  | eof
  /-- a `write` of `write_all` takes `n` bytes -/
  | write (n : Nat)

inductive ServeEvent (φ : Type) where
  | blank
  | handled (text : List UInt8) (h : Handled φ)
  | unpark

def ServeEvent.isUnpark : ServeEvent φ → Bool
  | .unpark => true
  | .blank | .handled _ _ => false

/-- What `serve` writes for a message. -/
def Handled.reply (sj : SerdeJson φ) (h : Handled φ) : List UInt8 :=
  match h.resp with
  | none => []
  | some resp => sj.toWriter resp ++ [newline]

/-- The body of the loop after `read_line`. -/
def ServeState.serveLine (sj : SerdeJson φ) (cfg : RingConfig) (s : ServeState)
    (line : List UInt8) :
    ServeState × List (ServeEvent φ) :=
  match fromUtf8 line with
  | none => ({ s with pc := .returned false, out := { s.out with closed := true } }, [])
  | some line =>
    let trimmed := trimEnd line
    if trimmed = "" then (s, [.blank])
    else match JsonServer.line sj cfg (utf8 trimmed) with
      | .posted =>
        ({ s with postedCalls := s.postedCalls + 1 }, [.handled (utf8 trimmed) .posted, .unpark])
      | h =>
        ({ s with pc := .ofPending (h.reply sj) }, [.handled (utf8 trimmed) h])

def JsonServer.step (sj : SerdeJson φ) (cfg : RingConfig) (s : ServeState) :
    ServeAction → Option (ServeState × List (ServeEvent φ))
  | .fill n =>
    match s.pc, s.reader.avail with
    | .reading, [] =>
      if 0 < n ∧ n ≤ s.inp.bytes.length then
        some ({ s with
          inp := { s.inp with bytes := s.inp.bytes.drop n }
          reader := { s.reader with avail := s.inp.bytes.take n } }, [])
      else none
    | _, _ => none
  | .scan =>
    match s.pc, s.reader.avail with
    | .reading, _ :: _ =>
      match s.reader.scan newline with
      | (none, reader) => some ({ s with reader := reader }, [])
      | (some line, reader) => some ({ s with reader := reader }.serveLine sj cfg line)
    | _, _ => none
  | .eof =>
    match s.pc, s.reader.avail, s.inp.bytes, s.inp.closed with
    | .reading, [], [], true =>
      match s.reader.line with
      | [] => some ({ s with pc := .returned true, out := { s.out with closed := true } }, [])
      | line => some ({ s with reader := .empty }.serveLine sj cfg line)
    | _, _, _, _ => none
  | .write n =>
    match s.pc with
    | .writing pending =>
      if 0 < n ∧ n ≤ pending.length then
        some ({ s with
          out := { s.out with bytes := s.out.bytes ++ pending.take n }
          pc := .ofPending (pending.drop n) }, [])
      else none
    | _ => none

def JsonServer.machine (sj : SerdeJson φ) (cfg : RingConfig) :
    Machine ServeState ServeAction (ServeEvent φ) where
  step := JsonServer.step sj cfg

/-- A connection just accepted, on which the other side sends `bytes` and closes. -/
def ServeState.start (bytes : List UInt8) : ServeState where
  inp := { bytes := bytes, closed := true }
  out := { bytes := [], closed := false }
  reader := .empty
  pc := .reading
  postedCalls := 0

/-! ### What the loop does with lines -/

@[simp] theorem ServePc.pending_ofPending (bytes : List UInt8) :
    (ServePc.ofPending bytes).pending = bytes := by
  cases bytes <;> rfl

@[simp] theorem ServePc.running_ofPending (bytes : List UInt8) :
    (ServePc.ofPending bytes).running = true := by
  cases bytes <;> rfl

@[simp] theorem ServePc.pending_reading : ServePc.reading.pending = [] := rfl

@[simp] theorem ServePc.pending_writing (bytes : List UInt8) :
    (ServePc.writing bytes).pending = bytes := rfl

@[simp] theorem ServePc.running_reading : ServePc.reading.running = true := rfl

@[simp] theorem ServePc.running_writing (bytes : List UInt8) :
    (ServePc.writing bytes).running = true := rfl

theorem ServePc.ofPending_eq_writing {bytes pending : List UInt8}
    (h : ServePc.ofPending bytes = .writing pending) : pending ≠ [] := by
  cases bytes with
  | nil => cases h
  | cons b bs =>
    cases h
    simp

theorem ServePc.ofPending_ne_returned (bytes : List UInt8) (ok : Bool) :
    ServePc.ofPending bytes ≠ .returned ok := by
  cases bytes <;> exact nofun

theorem isWhitespace_newline : isWhitespace '\n' = true := by decide

theorem trimEnd_newline (s : String) : trimEnd (s ++ "\n") = trimEnd s := by
  have hlist : (s ++ "\n").toList = s.toList ++ ['\n'] := by simp
  rw [trimEnd, hlist, List.rdropWhile_concat_pos _ _ _ isWhitespace_newline, trimEnd]

theorem utf8_newline (s : String) : utf8 (s ++ "\n") = utf8 s ++ [newline] := utf8_append s "\n"

theorem newline_not_mem_utf8 {s : String} (h : '\n' ∉ s.toList) : newline ∉ utf8 s :=
  fun hm => h (mem_of_mem_utf8 (b := newline) (by decide) hm)

section Loop

variable (sj : SerdeJson φ) (cfg : RingConfig)

/-- What the server makes of a line. -/
def TextLine.handled (l : TextLine) : Handled φ := JsonServer.line sj cfg l.trimmed

def Handled.isPosted : Handled φ → Bool
  | .posted => true
  | .malformed | .attach _ _ | .unknown _ _ => false

/-- What it shows of that. -/
def TextLine.shown (l : TextLine) : List (ServeEvent φ) :=
  .handled l.trimmed (l.handled sj cfg) :: if (l.handled sj cfg).isPosted then [.unpark] else []

def TextLine.reply (l : TextLine) : List UInt8 := (l.handled sj cfg).reply sj

variable {sj cfg}

theorem ServeState.serveLine_eq {s : ServeState} (hs : s.pc = .reading) (l : TextLine) :
    s.serveLine sj cfg (l.bytes ++ [newline]) =
      ({ s with
          pc := .ofPending (l.reply sj cfg)
          postedCalls := s.postedCalls + if (l.handled sj cfg).isPosted then 1 else 0 },
        l.shown sj cfg) := by
  rw [TextLine.bytes, ← utf8_newline, serveLine, fromUtf8_utf8]
  simp only [trimEnd_newline, if_neg l.notBlank]
  unfold TextLine.shown TextLine.reply
  have hh : l.handled sj cfg = JsonServer.line sj cfg (utf8 (trimEnd l.text)) := rfl
  cases hl : JsonServer.line sj cfg (utf8 (trimEnd l.text)) with
  | posted =>
    rw [hh, hl]
    simp [Handled.isPosted, Handled.reply, Handled.resp, ServePc.ofPending, TextLine.trimmed, ← hs]
  | malformed | attach | unknown =>
    rw [hh, hl]
    simp [Handled.isPosted, TextLine.trimmed]

theorem unparks_shown (lines : List TextLine) :
    (lines.flatMap (TextLine.shown sj cfg)).countP ServeEvent.isUnpark =
      lines.countP fun l => (l.handled sj cfg).isPosted := by
  induction lines with
  | nil => rfl
  | cons l lines ih =>
    rw [List.flatMap_cons, List.countP_append, ih, List.countP_cons, TextLine.shown,
      List.countP_cons, Nat.add_comm]
    split <;> simp [ServeEvent.isUnpark, *]

/-- The server leaves the other side's end alone. -/
theorem JsonServer.step_closed {s s' : ServeState} {a : ServeAction} {ev : List (ServeEvent φ)}
    (hs : JsonServer.step sj cfg s a = some (s', ev)) : s'.inp.closed = s.inp.closed := by
  have hline : ∀ (t : ServeState) line, (t.serveLine sj cfg line).1.inp = t.inp := by
    intro t line
    unfold ServeState.serveLine
    split
    · rfl
    · dsimp only
      split
      · rfl
      · split <;> rfl
  cases a with
  | fill n =>
    simp only [JsonServer.step] at hs
    split at hs
    · split at hs
      · cases hs
        rfl
      · cases hs
    · cases hs
  | scan =>
    simp only [JsonServer.step] at hs
    split at hs
    · split at hs
      · cases hs
        rfl
      · obtain rfl : _ = s' := congrArg Prod.fst (Option.some.inj hs)
        rw [hline]
    · cases hs
  | eof =>
    simp only [JsonServer.step] at hs
    split at hs
    · split at hs
      · cases hs
        rfl
      · obtain rfl : _ = s' := congrArg Prod.fst (Option.some.inj hs)
        rw [hline]
    · cases hs
  | write n =>
    simp only [JsonServer.step] at hs
    split at hs
    · split at hs
      · cases hs
        rfl
      · cases hs
    · cases hs

/-! ### The invariant of the loop -/

variable (sj cfg)

/-- The server has handled the lines `done` and will handle `todo`; `rest` is on its way to the
socket, and `taken` of its answers has been read. -/
structure Serving (s : ServeState) (log : List (ServeEvent φ)) (rest taken : List UInt8)
    (done todo : List TextLine) : Prop where
  reads : s.reader.Reads newline (s.inp.bytes ++ rest) (todo.map TextLine.bytes)
  ended : s.inp.closed = true → rest = []
  log_eq : log = done.flatMap (TextLine.shown sj cfg)
  wrote : taken ++ s.out.bytes ++ s.pc.pending = done.flatMap (TextLine.reply sj cfg)
  calls : s.postedCalls =
    UInt64.ofNat (done.countP fun l => (l.handled sj cfg).isPosted)
  writing : ∀ pending, s.pc = .writing pending → pending ≠ []
  returned : ∀ ok, s.pc = .returned ok → ok = true ∧ todo = [] ∧ s.inp = ⟨[], true⟩
  opened : s.pc.running = true → s.out.closed = false

/-- What is left to do, when `todo` is all there will be. -/
def ServeState.work (s : ServeState) (todo : List TextLine) : Nat :=
  6 * s.inp.bytes.length + 3 * s.reader.avail.length + 3 * s.pc.pending.length +
    3 * (todo.map fun l => (l.reply sj cfg).length).sum + 2 * s.out.bytes.length +
    s.pc.running.toNat

namespace Serving

variable {sj cfg} {s s' : ServeState} {log ev : List (ServeEvent φ)} {rest taken : List UInt8}
  {done todo : List TextLine}

theorem start (lines : List TextLine) :
    Serving sj cfg (.start (joinLines newline (lines.map TextLine.bytes))) [] [] [] [] lines where
  reads := by
    rw [List.append_nil]
    refine .empty fun l hl => ?_
    obtain ⟨t, _, rfl⟩ := List.mem_map.mp hl
    exact newline_not_mem_utf8 t.oneLine
  ended := fun _ => rfl
  log_eq := rfl
  wrote := rfl
  calls := rfl
  writing := nofun
  returned := nofun
  opened := fun _ => rfl

theorem line (h : Serving sj cfg s log rest taken done todo) (hpc : s.pc = .reading)
    {full : List UInt8} {reader : LineReader UInt8}
    (hscan : s.reader.scan newline = (some full, reader)) :
    ∃ l tl, todo = l :: tl ∧ ({ s with reader := reader }.serveLine sj cfg full) =
        ({ s with
            reader := reader
            pc := .ofPending (l.reply sj cfg)
            postedCalls := s.postedCalls + if (l.handled sj cfg).isPosted then 1 else 0 },
          l.shown sj cfg) ∧
      Serving sj cfg { s with
          reader := reader
          pc := .ofPending (l.reply sj cfg)
          postedCalls := s.postedCalls + if (l.handled sj cfg).isPosted then 1 else 0 }
        (log ++ l.shown sj cfg) rest taken (done ++ [l]) tl := by
  obtain ⟨bytes, tl', htodo, rfl, hreads⟩ := h.reads.scan_some hscan
  obtain ⟨l, tl, rfl, rfl, rfl⟩ := List.map_eq_cons_iff.mp htodo
  refine ⟨l, tl, rfl, ServeState.serveLine_eq (s := { s with reader := reader }) hpc l, hreads,
    h.ended, ?_, ?_, ?_, ?_, ?_, fun _ => h.opened (by rw [hpc]; rfl)⟩
  · rw [h.log_eq]
    simp
  · have hw := h.wrote
    rw [hpc, ServePc.pending, List.append_nil] at hw
    simp [hw]
  · rw [h.calls]
    simp only [List.countP_append, List.countP_cons, List.countP_nil, Nat.zero_add]
    split <;> simp [UInt64.ofNat_add]
  · exact fun pending hp => ServePc.ofPending_eq_writing hp
  · exact fun ok hp => absurd hp (ServePc.ofPending_ne_returned _ _)

/-- Answers come of lines that were handled. -/
theorem log_ne_nil (h : Serving sj cfg s log rest taken done todo) (htaken : taken ≠ []) :
    log ≠ [] := by
  have hwrote := h.wrote
  rw [h.log_eq]
  cases done with
  | nil =>
    rw [List.flatMap_nil, List.append_assoc, List.append_eq_nil_iff] at hwrote
    exact absurd hwrote.1 htaken
  | cons l done => simp [TextLine.shown]

/-- Until it returns the server can go on, or waits for more. -/
theorem progress_or_waits (h : Serving sj cfg s log rest taken done todo)
    (hpc : ∀ ok, s.pc ≠ .returned ok) : (∃ a, (JsonServer.step sj cfg s a).isSome) ∨
      (s.pc = .reading ∧ s.reader.avail = [] ∧ s.inp.bytes = []) := by
  cases hp : s.pc with
  | returned ok => exact absurd hp (hpc ok)
  | writing pending =>
    have hlen := List.length_pos_of_ne_nil (h.writing pending hp)
    exact .inl ⟨.write 1, by simp [JsonServer.step, hp, Nat.succ_le_of_lt hlen]⟩
  | reading =>
    cases ha : s.reader.avail with
    | cons b bs =>
      refine .inl ⟨.scan, ?_⟩
      simp only [JsonServer.step, hp, ha]
      split <;> rfl
    | nil =>
      cases hb : s.inp.bytes with
      | cons b bs => exact .inl ⟨.fill 1, by simp [JsonServer.step, hp, ha, hb]⟩
      | nil => exact .inr ⟨rfl, rfl, rfl⟩

theorem progress (h : Serving sj cfg s log rest taken done todo) (hin : s.inp.closed = true)
    (hpc : s.pc ≠ .returned true) : ∃ a, (JsonServer.step sj cfg s a).isSome := by
  have hpc : ∀ ok, s.pc ≠ .returned ok := by
    intro ok hp
    obtain ⟨rfl, -⟩ := h.returned ok hp
    exact hpc hp
  rcases h.progress_or_waits hpc with hstep | ⟨hp, ha, hb⟩
  · exact hstep
  · refine ⟨.eof, ?_⟩
    simp only [JsonServer.step, hp, ha, hb, hin]
    split <;> rfl

/-! What the server does; every step leaves less to do -/

theorem fill (h : Serving sj cfg s log rest taken done todo) {n : Nat}
    (hs : JsonServer.step sj cfg s (.fill n) = some (s', ev)) :
    Serving sj cfg s' (log ++ ev) rest taken done todo ∧
      s'.work sj cfg todo + 1 ≤ s.work sj cfg todo := by
  simp only [JsonServer.step] at hs
  split at hs
  · rename_i hpc hav
    split at hs
    · rename_i hn
      cases hs
      refine ⟨⟨?_, h.ended, ?_, h.wrote, h.calls, h.writing, ?_, h.opened⟩, ?_⟩
      · refine LineReader.Reads.fill ?_ hav
        rw [← List.append_assoc, List.take_append_drop]
        exact h.reads
      · rw [List.append_nil, h.log_eq]
      · intro ok hp
        rw [show s.pc = .returned ok from hp] at hpc
        cases hpc
      · simp only [ServeState.work, hpc, hav, List.length_drop, List.length_take, List.length_nil]
        omega
    · cases hs
  · cases hs

theorem scan (h : Serving sj cfg s log rest taken done todo)
    (hs : JsonServer.step sj cfg s .scan = some (s', ev)) :
    ∃ done' todo', done' ++ todo' = done ++ todo ∧
      Serving sj cfg s' (log ++ ev) rest taken done' todo' ∧
      s'.work sj cfg todo' + 1 ≤ s.work sj cfg todo := by
  simp only [JsonServer.step] at hs
  split at hs
  · rename_i b bs hpc hav
    split at hs
    · rename_i reader hscan
      cases hs
      obtain ⟨-, rfl⟩ := LineReader.scan_none hscan
      refine ⟨done, todo, rfl, ⟨h.reads.scan_none hscan, h.ended, ?_, h.wrote, h.calls,
        h.writing, h.returned, h.opened⟩, ?_⟩
      · rw [List.append_nil, h.log_eq]
      · simp only [ServeState.work, hpc, hav, List.length_nil, List.length_cons]
        omega
    · rename_i full reader hscan
      obtain ⟨l, tl, rfl, heq, hserving⟩ := h.line hpc hscan
      rw [heq] at hs
      cases hs
      refine ⟨done ++ [l], tl, by simp, hserving, ?_⟩
      obtain ⟨a, _, _, hbytes, _⟩ := LineReader.scan_some hscan
      simp only [ServeState.work, hpc, ServePc.pending_ofPending, ServePc.running_ofPending,
        ServePc.pending_reading, ServePc.running_reading, List.map_cons, List.sum_cons, hbytes,
        List.length_append, List.length_cons, List.length_nil]
      omega
  · cases hs

theorem eof (h : Serving sj cfg s log rest taken done todo)
    (hs : JsonServer.step sj cfg s .eof = some (s', ev)) :
    Serving sj cfg s' (log ++ ev) rest taken done todo ∧
      s'.work sj cfg todo + 1 ≤ s.work sj cfg todo := by
  simp only [JsonServer.step] at hs
  split at hs
  · rename_i hpc hav hbytes hclosed
    have hreads := h.reads
    rw [hbytes, h.ended hclosed, List.append_nil] at hreads
    obtain ⟨hline, htodo⟩ := hreads.eof hav
    obtain rfl := List.map_eq_nil_iff.mp htodo
    split at hs
    · cases hs
      refine ⟨⟨h.reads, h.ended, ?_, ?_, h.calls, nofun, ?_, nofun⟩, ?_⟩
      · rw [List.append_nil, h.log_eq]
      · rw [← h.wrote, hpc]
        rfl
      · intro ok hp
        cases hp
        refine ⟨rfl, rfl, ?_⟩
        cases hi : s.inp with
        | mk bytes closed =>
          rw [hi] at hbytes hclosed
          cases hbytes
          cases hclosed
          rfl
      · simp [ServeState.work, hpc, hbytes, hav, ServePc.pending, ServePc.running]
    · rename_i hne
      exact absurd hline (by simpa using hne)
  · cases hs

theorem write (h : Serving sj cfg s log rest taken done todo) {n : Nat}
    (hs : JsonServer.step sj cfg s (.write n) = some (s', ev)) :
    Serving sj cfg s' (log ++ ev) rest taken done todo ∧
      s'.work sj cfg todo + 1 ≤ s.work sj cfg todo := by
  simp only [JsonServer.step] at hs
  split at hs
  · rename_i pending hpc
    split at hs
    · rename_i hn
      cases hs
      refine ⟨⟨?_, h.ended, ?_, ?_, h.calls, ?_, ?_, fun _ => h.opened (by rw [hpc]; rfl)⟩, ?_⟩
      · exact h.reads
      · rw [List.append_nil, h.log_eq]
      · rw [← h.wrote, hpc]
        simp
      · exact fun p hp => ServePc.ofPending_eq_writing hp
      · exact fun ok hp => absurd hp (ServePc.ofPending_ne_returned _ _)
      · simp only [ServeState.work, hpc, ServePc.pending_ofPending, ServePc.running_ofPending,
          ServePc.pending_writing, ServePc.running_writing, List.length_drop, List.length_append,
          List.length_take]
        omega
    · cases hs
  · cases hs

/-- A step of the server keeps to the lines and leaves less to do. -/
theorem step (h : Serving sj cfg s log rest taken done todo) {a : ServeAction}
    (hs : JsonServer.step sj cfg s a = some (s', ev)) :
    ∃ done' todo', done' ++ todo' = done ++ todo ∧
      Serving sj cfg s' (log ++ ev) rest taken done' todo' ∧
      s'.work sj cfg todo' + 1 ≤ s.work sj cfg todo := by
  cases a with
  | fill n => exact ⟨done, todo, rfl, h.fill hs⟩
  | scan => exact h.scan hs
  | eof => exact ⟨done, todo, rfl, h.eof hs⟩
  | write n => exact ⟨done, todo, rfl, h.write hs⟩

/-! What the other side does -/

theorem send (h : Serving sj cfg s log rest taken done todo) (hopen : s.inp.closed = false)
    (l : TextLine) :
    Serving sj cfg s log (rest ++ (l.bytes ++ [newline])) taken done (todo ++ [l]) where
  reads := by
    have hline : ∀ m ∈ [l.bytes], newline ∉ m := by
      intro m hm
      rw [List.mem_singleton.mp hm]
      exact newline_not_mem_utf8 l.oneLine
    have hreads := h.reads.append hline
    rw [joinLines_cons, joinLines_nil, List.append_assoc] at hreads
    rwa [List.map_append]
  ended := fun hc => by
    rw [hopen] at hc
    cases hc
  log_eq := h.log_eq
  wrote := h.wrote
  calls := h.calls
  writing := h.writing
  returned := fun ok hp => by
    rw [(h.returned ok hp).2.2] at hopen
    cases hopen
  opened := h.opened

theorem feed {chunk : List UInt8} (h : Serving sj cfg s log (chunk ++ rest) taken done todo)
    (hopen : s.inp.closed = false) :
    Serving sj cfg { s with inp := { s.inp with bytes := s.inp.bytes ++ chunk } } log rest taken
      done todo where
  reads := by
    have hreads := h.reads
    rwa [← List.append_assoc] at hreads
  ended := fun hc => by
    rw [show s.inp.closed = true from hc] at hopen
    cases hopen
  log_eq := h.log_eq
  wrote := h.wrote
  calls := h.calls
  writing := h.writing
  returned := fun ok hp => by
    rw [(h.returned ok hp).2.2] at hopen
    cases hopen
  opened := h.opened

theorem close (h : Serving sj cfg s log [] taken done todo) :
    Serving sj cfg { s with inp := { s.inp with closed := true } } log [] taken done todo where
  reads := h.reads
  ended := fun _ => rfl
  log_eq := h.log_eq
  wrote := h.wrote
  calls := h.calls
  writing := h.writing
  returned := fun ok hp => by
    obtain ⟨hok, htodo, hinp⟩ := h.returned ok hp
    exact ⟨hok, htodo, by rw [hinp]⟩
  opened := h.opened

theorem take (h : Serving sj cfg s log rest taken done todo) (n : Nat) :
    Serving sj cfg { s with out := { s.out with bytes := s.out.bytes.drop n } } log rest
      (taken ++ s.out.bytes.take n) done todo where
  reads := h.reads
  ended := h.ended
  log_eq := h.log_eq
  wrote := by
    rw [List.append_assoc taken, List.take_append_drop]
    exact h.wrote
  calls := h.calls
  writing := h.writing
  returned := h.returned
  opened := h.opened

theorem run {lines : List TextLine} {as : List ServeAction}
    (hrun : (JsonServer.machine sj cfg).Run Machine.free
      (.start (joinLines newline (lines.map TextLine.bytes))) [] as s log) :
    ∃ done todo, done ++ todo = lines ∧ Serving sj cfg s log [] [] done todo ∧
      as.length + s.work sj cfg todo ≤
        (ServeState.start (joinLines newline (lines.map TextLine.bytes))).work sj cfg lines := by
  induction hrun with
  | nil => exact ⟨[], lines, rfl, start lines, by simp⟩
  | snoc _ _ hs ih =>
    obtain ⟨done, todo, hlines, h, hwork⟩ := ih
    obtain ⟨done', todo', hlines', h', hless⟩ := h.step hs
    refine ⟨done', todo', hlines'.trans hlines, h', ?_⟩
    rw [List.length_append, List.length_singleton]
    omega

end Serving

end Loop

/-! ### Compact JSON is one line -/

/-- No line ends in it and no white space at its end. -/
structure Printed (cs : List Char) : Prop where
  oneLine : '\n' ∉ cs
  last : ∃ init c, cs = init ++ [c] ∧ isWhitespace c = false

theorem Printed.append {pre cs : List Char} (hpre : '\n' ∉ pre) (h : Printed cs) :
    Printed (pre ++ cs) := by
  obtain ⟨init, c, rfl, hc⟩ := h.last
  refine ⟨fun hm => ?_, pre ++ init, c, by simp, hc⟩
  exact (List.mem_append.mp hm).elim hpre h.oneLine

theorem Printed.cons {c : Char} {cs : List Char} (hc : '\n' ≠ c) (h : Printed cs) :
    Printed (c :: cs) :=
  h.append (show '\n' ∉ [c] by simpa using hc)

theorem printed_singleton {c : Char} (hc : isWhitespace c = false) : Printed [c] := by
  refine ⟨fun hm => ?_, [], c, rfl, hc⟩
  rw [← List.mem_singleton.mp hm, isWhitespace_newline] at hc
  cases hc

theorem newline_not_mem_escape (c : Char) : '\n' ∉ escape c := by
  unfold escape
  split
  · rename_i e he
    have hshort : ∀ d ∈ shortEscape c, d ≠ '\n' := by
      unfold shortEscape
      split <;> simp
    simpa using (hshort e he).symm
  · rename_i hnone
    have hdigit : ∀ n < 16, Nat.digitChar n ≠ '\n' := by decide
    split
    · rename_i hlt
      have h1 := (hdigit (c.toNat / 16) (by omega)).symm
      have h2 := (hdigit (c.toNat % 16) (by omega)).symm
      simp [h1, h2]
    · rintro hm
      rw [← List.mem_singleton.mp hm] at hnone
      cases hnone

theorem printed_quote (s : String) : Printed (quote s) := by
  refine .cons (by decide) (.append ?_ (printed_singleton (by decide)))
  intro hm
  obtain ⟨c, _, hc⟩ := List.mem_flatMap.mp hm
  exact newline_not_mem_escape c hc

theorem printed_digits (n : Nat) : Printed (Nat.toDigits 10 n) := by
  have hdigits : ∀ c ∈ Nat.toDigits 10 n, c.isDigit = true := fun c hc =>
    Nat.isDigit_of_mem_toDigits (by decide) (by decide) hc
  have hblack : ∀ c : Char, c.isDigit = true → isWhitespace c = false := by
    intro c hc
    have hrange : 48 ≤ c.toNat ∧ c.toNat ≤ 57 := by
      simpa [Char.isDigit, UInt32.le_iff_toNat_le] using hc
    simp only [isWhitespace, Bool.or_eq_false_iff, Bool.and_eq_false_iff, decide_eq_false_iff_not]
    omega
  refine ⟨fun hm => absurd (hdigits _ hm) (by decide), ?_⟩
  refine ⟨_, (Nat.toDigits 10 n).getLast Nat.toDigits_ne_nil,
    (List.dropLast_append_getLast _).symm, hblack _ (hdigits _ (List.getLast_mem _))⟩

namespace Json

mutual

theorem printed (v : Json String Empty) : Printed v.print := by
  match v with
  | .null => exact .append (show '\n' ∉ ['n', 'u', 'l'] by decide) (printed_singleton (by decide))
  | .bool true =>
    exact .append (show '\n' ∉ ['t', 'r', 'u'] by decide) (printed_singleton (by decide))
  | .bool false =>
    exact .append (show '\n' ∉ ['f', 'a', 'l', 's'] by decide) (printed_singleton (by decide))
  | .num n =>
    rw [print, Number.print]
    split
    · exact .cons (by decide) (printed_digits _)
    · exact printed_digits _
  | .str s => exact printed_quote s
  | .arr [] => exact .cons (by decide) (printed_singleton (by decide))
  | .arr (v :: items) =>
    rw [print]
    exact .cons (by decide) (.append v.printed.oneLine (printed_items items))
  | .obj [] => exact .cons (by decide) (printed_singleton (by decide))
  | .obj ((key, v) :: fields) =>
    rw [print]
    exact .cons (by decide) (.append (printed_quote key).oneLine
      (.cons (by decide) (.append v.printed.oneLine (printed_fields fields))))

theorem printed_items (items : List (Json String Empty)) : Printed (printItems items) := by
  match items with
  | [] => exact printed_singleton (by decide)
  | v :: items =>
    rw [printItems]
    exact .cons (by decide) (.append v.printed.oneLine (printed_items items))

theorem printed_fields (fields : List (String × Json String Empty)) :
    Printed (printFields fields) := by
  match fields with
  | [] => exact printed_singleton (by decide)
  | (key, v) :: fields =>
    rw [printFields]
    exact .cons (by decide) (.append (printed_quote key).oneLine
      (.cons (by decide) (.append v.printed.oneLine (printed_fields fields))))

end

end Json

theorem compactJson_oneLine : compactJson.OneLine where
  text := fun v => by
    have h := v.printed
    obtain ⟨init, c, hlast, hc⟩ := h.last
    refine ⟨.ofList v.print, rfl, by simpa using h.oneLine, ?_, ?_⟩
    · rw [trimEnd, String.toList_ofList, hlast,
        List.rdropWhile_concat_neg _ _ _ (by simp [hc])]
    · intro hempty
      have hnil := congrArg String.toList hempty
      rw [String.toList_ofList, hlast] at hnil
      simp at hnil

end ShmMpsc
