import ShmMpsc.Control.Stream

/-!
# A stream that breaks off

The client of a run that failed is gone in the middle of whatever it was writing. The server
still handles the whole lines, and of the last one at most a text that lacks nothing but its
end of line.
-/

namespace ShmMpsc

set_option autoImplicit false

variable {φ : Type}

/-- The text of an object that is cut short is an error (`EOF while parsing an object`). -/
structure SerdeJson.NeedsWhole (sj : SerdeJson φ) : Prop where
  cut : ∀ fields bytes, bytes <+: sj.toWriter (.obj fields) → bytes ≠ sj.toWriter (.obj fields) →
    sj.fromSlice bytes = none

theorem utf8_prefix {s t : String} (h : s.toList <+: t.toList) : utf8 s <+: utf8 t := by
  obtain ⟨more, hmore⟩ := h
  rw [utf8_eq_flatMap, utf8_eq_flatMap, ← hmore, List.flatMap_append]
  exact List.prefix_append _ _

theorem toList_prefix {s t : String} (h : utf8 s <+: utf8 t) : s.toList <+: t.toList := by
  obtain ⟨more, hmore⟩ := h
  refine List.isPrefix_of_utf8Encode_append_eq_utf8Encode more.toByteArray ?_
  rw [← String.toByteArray_ofList, ← String.toByteArray_ofList, String.ofList_toList,
    String.ofList_toList]
  refine ByteArray.ext (Array.ext' ?_)
  simpa [utf8] using hmore

theorem compactJson_needsWhole : compactJson.NeedsWhole where
  cut := by
    intro fields bytes hpre hne
    cases hs : fromUtf8 bytes with
    | none => simp [compactJson, hs]
    | some s =>
      obtain rfl := utf8_of_fromUtf8 hs
      obtain ⟨more, hmore⟩ := toList_prefix hpre
      rw [String.toList_ofList] at hmore
      have hcut : more ≠ [] := by
        rintro rfl
        rw [List.append_nil] at hmore
        refine hne ?_
        show utf8 s = utf8 (.ofList _)
        rw [← hmore, String.ofList_toList]
      simp [compactJson, Json.parse_cut hmore hcut]

/-! ### One line -/

section Line

variable {sj : SerdeJson φ} {cfg : RingConfig}

variable (sj cfg) in
/-- A line concerns neither the socket nor the reader. -/
theorem ServeState.serveLine_reads (s : ServeState) (line : List UInt8) :
    (s.serveLine sj cfg line).1.inp = s.inp ∧ (s.serveLine sj cfg line).1.reader = s.reader := by
  unfold serveLine
  split
  · exact ⟨rfl, rfl⟩
  · dsimp only
    split
    · exact ⟨rfl, rfl⟩
    · split <;> exact ⟨rfl, rfl⟩

/-- At the end of the stream a line need not be terminated. -/
theorem ServeState.serveLine_bare (s : ServeState) (l : TextLine) :
    s.serveLine sj cfg l.bytes = s.serveLine sj cfg (l.bytes ++ [newline]) := by
  rw [TextLine.bytes, ← utf8_newline, serveLine, serveLine, fromUtf8_utf8, fromUtf8_utf8]
  simp only [trimEnd_newline]

theorem unparks_serveLine_le (s : ServeState) (line : List UInt8) :
    (s.serveLine sj cfg line).2.countP ServeEvent.isUnpark ≤ 1 := by
  unfold ServeState.serveLine
  split
  · exact Nat.zero_le 1
  · dsimp only
    split
    · exact Nat.zero_le 1
    · split
      · exact Nat.le_refl 1
      · exact Nat.zero_le 1

/-- A piece of a line is none. -/
theorem unparks_serveLine_cut (hw : sj.NeedsWhole) {fields : List (String × Json String φ)}
    {tail : List UInt8} (hpre : tail <+: sj.toWriter (.obj fields))
    (hne : tail ≠ sj.toWriter (.obj fields)) (s : ServeState) :
    (s.serveLine sj cfg tail).2.countP ServeEvent.isUnpark = 0 := by
  unfold ServeState.serveLine
  split
  · rfl
  · rename_i line hline
    obtain rfl := utf8_of_fromUtf8 hline
    dsimp only
    split
    · rfl
    · have htrim : utf8 (trimEnd line) <+: utf8 line := by
        refine utf8_prefix ?_
        rw [trimEnd, String.toList_ofList]
        exact List.rdropWhile_prefix _ _
      have hcut : sj.fromSlice (utf8 (trimEnd line)) = none := by
        refine hw.cut fields _ (htrim.trans hpre) fun heq => hne ?_
        exact hpre.eq_of_length_le (heq ▸ htrim.length_le)
      rw [JsonServer.line, hcut]
      rfl

variable (sj cfg) in
theorem unparks_serveLine (s : ServeState) (hs : s.pc = .reading) (l : TextLine) :
    (s.serveLine sj cfg (l.bytes ++ [newline])).2.countP ServeEvent.isUnpark =
      if (l.handled sj cfg).isPosted then 1 else 0 := by
  rw [ServeState.serveLine_eq hs]
  have h : ([l].flatMap (TextLine.shown sj cfg)).countP ServeEvent.isUnpark =
      [l].countP fun l => (l.handled sj cfg).isPosted := unparks_shown [l]
  rw [List.flatMap_singleton] at h
  rw [h, List.countP_singleton]

theorem JsonServer.unparks_step_le {s s' : ServeState} {a : ServeAction} {ev : List (ServeEvent φ)}
    (hs : JsonServer.step sj cfg s a = some (s', ev)) : ev.countP ServeEvent.isUnpark ≤ 1 := by
  cases a with
  | fill n =>
    simp only [JsonServer.step] at hs
    split at hs
    · split at hs
      · cases hs
        exact Nat.zero_le 1
      · cases hs
    · cases hs
  | scan =>
    simp only [JsonServer.step] at hs
    split at hs
    · split at hs
      · cases hs
        exact Nat.zero_le 1
      · obtain rfl := congrArg Prod.snd (Option.some.inj hs)
        exact unparks_serveLine_le _ _
    · cases hs
  | eof =>
    simp only [JsonServer.step] at hs
    split at hs
    · split at hs
      · cases hs
        exact Nat.zero_le 1
      · obtain rfl := congrArg Prod.snd (Option.some.inj hs)
        exact unparks_serveLine_le _ _
    · cases hs
  | write n =>
    simp only [JsonServer.step] at hs
    split at hs
    · split at hs
      · cases hs
        exact Nat.zero_le 1
      · cases hs
    · cases hs

end Line

/-! ### The rest of the stream -/

section Rest

variable (sj : SerdeJson φ) (cfg : RingConfig)

/-- The stream ends with the lines `lines` and a piece `tail`; `left` of all that are
notifications. -/
structure Torn (s : ServeState) (left : Nat) (lines : List TextLine) (tail : List UInt8) :
    Prop where
  reader : newline ∉ s.reader.line
  text : s.reader.line ++ s.reader.avail ++ s.inp.bytes =
    joinLines newline (lines.map TextLine.bytes) ++ tail
  piece : newline ∉ tail
  left : ∃ last, left = (lines.countP fun l => (l.handled sj cfg).isPosted) + last ∧
    (tail = [] → last = 0) ∧
    (tail ≠ [] → ∀ t : ServeState, t.pc = .reading →
      (t.serveLine sj cfg tail).2.countP ServeEvent.isUnpark = last)

variable {sj cfg}

namespace Torn

variable {s s' : ServeState} {left : Nat} {lines : List TextLine} {tail : List UInt8}
  {ev : List (ServeEvent φ)}

/-- A line that the reader has found is the first of them. -/
theorem line (h : Torn sj cfg s left lines tail) {full : List UInt8}
    {reader : LineReader UInt8} (hscan : s.reader.scan newline = (some full, reader)) :
    ∃ l ls, lines = l :: ls ∧ full = l.bytes ++ [newline] ∧
      Torn sj cfg ({ s with reader := reader }.serveLine sj cfg full).1
        (left - if (l.handled sj cfg).isPosted then 1 else 0) ls tail ∧
      (if (l.handled sj cfg).isPosted then 1 else 0) ≤ left := by
  obtain ⟨a, rfl, ha, hav, hline⟩ := LineReader.scan_some hscan
  have htext := h.text
  rw [hav] at htext
  have hno : newline ∉ s.reader.line ++ a := fun hm => (List.mem_append.mp hm).elim h.reader ha
  cases lines with
  | nil =>
    refine absurd ?_ h.piece
    rw [List.map_nil, joinLines_nil, List.nil_append] at htext
    rw [← htext]
    simp
  | cons l ls =>
    rw [List.map_cons, joinLines_cons] at htext
    obtain ⟨heq, hrest⟩ := append_sep_inj hno (newline_not_mem_utf8 l.oneLine)
      (show s.reader.line ++ a ++ newline :: (reader.avail ++ s.inp.bytes) =
        l.bytes ++ newline :: (joinLines newline (ls.map TextLine.bytes) ++ tail) by
        simpa using htext)
    obtain ⟨last, hleft, hnil, hlast⟩ := h.left
    rw [List.countP_cons] at hleft
    obtain ⟨hinp, hreader⟩ := ServeState.serveLine_reads sj cfg
      { s with reader := reader } (s.reader.line ++ a ++ [newline])
    refine ⟨l, ls, rfl, congrArg (· ++ [newline]) heq,
      ⟨?_, ?_, h.piece, last, by omega, hnil, hlast⟩, by omega⟩
    · rw [hreader, hline]
      exact List.not_mem_nil
    · rw [hreader, hinp, hline, List.nil_append]
      exact hrest

/-- Nothing more comes than was left. -/
theorem step (h : Torn sj cfg s left lines tail) {a : ServeAction}
    (hs : JsonServer.step sj cfg s a = some (s', ev)) :
    ∃ left' lines' tail', Torn sj cfg s' left' lines' tail' ∧
      left = left' + ev.countP ServeEvent.isUnpark := by
  cases a with
  | fill n =>
    simp only [JsonServer.step] at hs
    split at hs
    · rename_i hpc hav
      split at hs
      · cases hs
        refine ⟨left, lines, tail, ⟨h.reader, ?_, h.piece, h.left⟩, rfl⟩
        have htext := h.text
        rw [hav, List.append_nil] at htext
        rw [List.append_assoc, List.take_append_drop]
        exact htext
      · cases hs
    · cases hs
  | scan =>
    simp only [JsonServer.step] at hs
    split at hs
    · rename_i hpc hav
      split at hs
      · rename_i reader hscan
        cases hs
        obtain ⟨hno, rfl⟩ := LineReader.scan_none hscan
        refine ⟨left, lines, tail, ⟨fun hm => ?_, ?_, h.piece, h.left⟩, rfl⟩
        · exact (List.mem_append.mp hm).elim h.reader hno
        · rw [List.append_nil]
          exact h.text
      · rename_i full reader hscan
        obtain ⟨l, ls, rfl, rfl, htorn, hle⟩ := h.line hscan
        have hunparks := unparks_serveLine sj cfg { s with reader := reader } hpc l
        obtain rfl : _ = s' := congrArg Prod.fst (Option.some.inj hs)
        obtain rfl : _ = ev := congrArg Prod.snd (Option.some.inj hs)
        refine ⟨_, ls, tail, htorn, ?_⟩
        rw [hunparks]
        omega
    · cases hs
  | eof =>
    simp only [JsonServer.step] at hs
    split at hs
    · rename_i hpc hav hbytes hclosed
      have htext := h.text
      rw [hav, hbytes, List.append_nil, List.append_nil] at htext
      obtain rfl : lines = [] := by
        cases lines with
        | nil => rfl
        | cons l ls =>
          refine absurd ?_ h.reader
          rw [htext, List.map_cons, joinLines_cons]
          simp
      obtain ⟨last, hleft, hnil, hlast⟩ := h.left
      rw [List.map_nil, joinLines_nil, List.nil_append] at htext
      rw [List.countP_nil, Nat.zero_add] at hleft
      split at hs
      · rename_i hempty
        cases hs
        rw [hempty] at htext
        refine ⟨left, [], [], ⟨h.reader, ?_, List.not_mem_nil, last, ?_, fun _ => hnil htext.symm,
          fun hne => absurd rfl hne⟩, rfl⟩
        · rw [hav, hbytes, hempty]
          rfl
        · rw [hleft, List.countP_nil, Nat.zero_add]
      · rename_i hne
        rw [htext] at hs
        obtain ⟨hinp, hreader⟩ := ServeState.serveLine_reads sj cfg
          { s with reader := .empty } tail
        have hunparks := hlast (by rw [← htext]; exact hne) { s with reader := .empty } hpc
        obtain rfl : _ = s' := congrArg Prod.fst (Option.some.inj hs)
        obtain rfl : _ = ev := congrArg Prod.snd (Option.some.inj hs)
        refine ⟨0, [], [], ⟨?_, ?_, List.not_mem_nil, 0, rfl, fun _ => rfl,
          fun hne => absurd rfl hne⟩, ?_⟩
        · rw [hreader]
          exact List.not_mem_nil
        · rw [hreader, hinp, hbytes]
          rfl
        · rw [hunparks, hleft, Nat.zero_add]
    · cases hs
  | write n =>
    simp only [JsonServer.step] at hs
    split at hs
    · split at hs
      · cases hs
        exact ⟨left, lines, tail, ⟨h.reader, h.text, h.piece, h.left⟩, rfl⟩
      · cases hs
    · cases hs

end Torn

/-- What the client still has to put on the wire is gone. -/
theorem Serving.torn (hw : sj.NeedsWhole) {s : ServeState} {log : List (ServeEvent φ)}
    {rest taken : List UInt8} {done todo : List TextLine}
    (h : Serving sj cfg s log rest taken done todo)
    (hobj : ∀ l ∈ todo, ∃ fields, l.bytes = sj.toWriter (.obj fields)) :
    ∃ left lines tail, Torn sj cfg { s with inp := { s.inp with closed := true } } left lines tail ∧
      left ≤ todo.countP fun l => (l.handled sj cfg).isPosted := by
  have hcome := h.reads.text
  rw [← List.append_assoc] at hcome
  obtain ⟨ms, ns, tail, hsplit, htext, htail⟩ := joinLines_cut hcome
  obtain ⟨ls, ks, rfl, rfl, rfl⟩ := List.map_eq_append_iff.mp hsplit
  rw [List.countP_append]
  by_cases hnil : tail = []
  · subst hnil
    exact ⟨_, ls, [], ⟨h.reads.line, htext, List.not_mem_nil, 0, rfl, fun _ => rfl,
      fun hne => absurd rfl hne⟩, Nat.le_add_right _ _⟩
  · obtain ⟨bytes, tl, hns, hpre⟩ := htail.resolve_left hnil
    obtain ⟨l, ks', rfl, rfl, rfl⟩ := List.map_eq_cons_iff.mp hns
    have hpiece : newline ∉ tail := fun hm => newline_not_mem_utf8 l.oneLine (hpre.subset hm)
    by_cases hwhole : tail = l.bytes
    · subst hwhole
      refine ⟨_, ls, l.bytes, ⟨h.reads.line, htext, hpiece,
        if (l.handled sj cfg).isPosted then 1 else 0, rfl, fun h => absurd h hnil,
        fun _ t ht => ?_⟩, ?_⟩
      · rw [ServeState.serveLine_bare, unparks_serveLine sj cfg t ht]
      · rw [List.countP_cons]
        omega
    · obtain ⟨fields, hfields⟩ := hobj l (by simp)
      rw [hfields] at hpre hwhole
      exact ⟨_, ls, tail, ⟨h.reads.line, htext, hpiece, 0, rfl, fun _ => rfl,
        fun _ t _ => unparks_serveLine_cut hw hpre hwhole t⟩, Nat.le_add_right _ _⟩

end Rest

section Client

variable {sj : SerdeJson φ} {hl : sj.OneLine} {cfg : RingConfig} {name : String} {s : StreamState}
  {log : List (StreamEvent φ)} {taken : List UInt8} {done todo : List TextLine}

/-- Every signal is a notification that the server has come to, or one of the lines to come. -/
theorem Streaming.unparks (hd : sj.Documented) (h : Streaming hl cfg name s log taken done todo) :
    (served log).countP ServeEvent.isUnpark +
      todo.countP (fun l => (l.handled sj cfg).isPosted) = (signals log).length := by
  rw [h.serving.log_eq, unparks_shown, ← List.countP_append, h.lines, ← unparks_shown,
    shown_clientLines hl hd, unparks_expected]

theorem Streaming.torn (hw : sj.NeedsWhole) (h : Streaming hl cfg name s log taken done todo) :
    ∃ left lines tail,
      Torn sj cfg { s.server with inp := { s.server.inp with closed := true } } left lines tail ∧
      left ≤ todo.countP fun l => (l.handled sj cfg).isPosted := by
  refine h.serving.torn hw fun l hm => ?_
  have hmem : l ∈ clientLines hl name (signals log) := by
    rw [← h.lines]
    exact List.mem_append_right _ hm
  rcases List.mem_cons.mp hmem with rfl | hmem
  · exact ⟨_, hl.line_bytes _⟩
  · obtain ⟨seq, _, rfl⟩ := List.mem_map.mp hmem
    exact ⟨_, hl.line_bytes _⟩

end Client

end ShmMpsc
