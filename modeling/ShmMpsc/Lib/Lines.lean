import Mathlib.Data.List.Basic
import Mathlib.Data.List.TakeWhile

/-!
# Terminated lines over a stream

Lines are sent with a terminator each and read through a buffer, in chunks that need not
end where lines end. A reader whose bytes, together with those still to come, are some lines
with their terminators reads these lines.
-/

namespace ShmMpsc

set_option autoImplicit false

universe u

variable {α : Type u}

/-- The lines, each with its terminator. -/
def joinLines (sep : α) (ls : List (List α)) : List α := ls.flatMap fun l => l ++ [sep]

variable {sep : α} {l : List α} {ls ms : List (List α)}

@[simp] theorem joinLines_nil : joinLines sep ([] : List (List α)) = [] := rfl

@[simp] theorem joinLines_cons : joinLines sep (l :: ls) = l ++ sep :: joinLines sep ls := by
  simp [joinLines]

@[simp] theorem joinLines_append :
    joinLines sep (ls ++ ms) = joinLines sep ls ++ joinLines sep ms := by
  simp [joinLines]

/-- Two texts are split alike at their first terminators. -/
theorem append_sep_inj {a b x y : List α} (ha : sep ∉ a) (hb : sep ∉ b)
    (h : a ++ sep :: x = b ++ sep :: y) : a = b ∧ x = y := by
  induction a generalizing b with
  | nil =>
    cases b with
    | nil => exact ⟨rfl, (List.cons.inj h).2⟩
    | cons c b =>
      obtain ⟨rfl, -⟩ := List.cons.inj h
      exact absurd List.mem_cons_self hb
  | cons c a ih =>
    cases b with
    | nil =>
      obtain ⟨rfl, -⟩ := List.cons.inj h
      exact absurd List.mem_cons_self ha
    | cons d b =>
      obtain ⟨rfl, htl⟩ := List.cons.inj h
      obtain ⟨rfl, hxy⟩ := ih (fun hm => ha (List.mem_cons_of_mem _ hm))
        (fun hm => hb (List.mem_cons_of_mem _ hm)) htl
      exact ⟨rfl, hxy⟩

theorem joinLines_eq_line (hls : ∀ m ∈ ls, sep ∉ m) (hl : sep ∉ l) {rest : List α}
    (h : l ++ sep :: rest = joinLines sep ls) : ∃ tl, ls = l :: tl ∧ rest = joinLines sep tl := by
  cases ls with
  | nil => simp at h
  | cons m tl =>
    rw [joinLines_cons] at h
    obtain ⟨rfl, rfl⟩ := append_sep_inj hl (hls m List.mem_cons_self) h
    exact ⟨tl, rfl, rfl⟩

theorem joinLines_eq_nil (hl : sep ∉ l) (h : l = joinLines sep ls) : ls = [] := by
  cases ls with
  | nil => rfl
  | cons m tl =>
    rw [h, joinLines_cons] at hl
    simp at hl

theorem joinLines_inj (hls : ∀ m ∈ ls, sep ∉ m) (hms : ∀ m ∈ ms, sep ∉ m)
    (h : joinLines sep ls = joinLines sep ms) : ls = ms := by
  induction ls generalizing ms with
  | nil =>
    cases ms with
    | nil => rfl
    | cons m ms => simp at h
  | cons l ls ih =>
    rw [joinLines_cons] at h
    obtain ⟨tl, rfl, htl⟩ := joinLines_eq_line hms (hls l List.mem_cons_self) h
    rw [ih (fun m hm => hls m (List.mem_cons_of_mem _ hm))
      (fun m hm => hms m (List.mem_cons_of_mem _ hm)) htl]

/-- What comes of the lines before the stream breaks off: some of them, and a piece of the next. -/
theorem joinLines_cut {text rest : List α} (h : text ++ rest = joinLines sep ls) :
    ∃ ms ns tail, ls = ms ++ ns ∧ text = joinLines sep ms ++ tail ∧
      (tail = [] ∨ ∃ l tl, ns = l :: tl ∧ tail <+: l) := by
  induction ls generalizing text with
  | nil => exact ⟨[], [], [], rfl, (List.append_eq_nil_iff.mp h).1, .inl rfl⟩
  | cons l ls ih =>
    have hline : joinLines sep (l :: ls) = (l ++ [sep]) ++ joinLines sep ls := by simp
    rw [hline] at h
    rcases List.append_eq_append_iff.mp h with ⟨left, hl, -⟩ | ⟨more, rfl, hmore⟩
    · rcases List.append_eq_append_iff.mp hl with ⟨sep', rfl, hsep⟩ | ⟨left', rfl, -⟩
      · cases sep' with
        | nil => exact ⟨[], l :: ls, l, rfl, by simp, .inr ⟨l, ls, rfl, List.prefix_rfl⟩⟩
        | cons c sep' =>
          obtain ⟨rfl, hnil⟩ := List.cons.inj hsep
          obtain ⟨rfl, -⟩ := List.append_eq_nil_iff.mp hnil.symm
          exact ⟨[l], ls, [], rfl, by simp, .inl rfl⟩
      · exact ⟨[], _ :: ls, text, rfl, rfl, .inr ⟨_, ls, rfl, List.prefix_append _ _⟩⟩
    · obtain ⟨ms, ns, tail, rfl, rfl, htail⟩ := ih hmore.symm
      exact ⟨l :: ms, ns, tail, rfl, by simp, htail⟩

/-- A buffered reader in a line: what it has of the line, and what it has received beyond. -/
structure LineReader (α : Type u) where
  line : List α
  avail : List α

def LineReader.empty : LineReader α := { line := [], avail := [] }

namespace LineReader

variable [DecidableEq α] {r r' : LineReader α}

/-- A look through what was received: the line with its terminator, when that is there. -/
def scan (sep : α) (r : LineReader α) : Option (List α) × LineReader α :=
  match r.avail.dropWhile fun c => c ≠ sep with
  | [] => (none, { line := r.line ++ r.avail, avail := [] })
  | _ :: rest =>
    (some (r.line ++ r.avail.takeWhile (fun c => c ≠ sep) ++ [sep]), { line := [], avail := rest })

/-- The reader will read `ls`, once `rest` has come in. -/
structure Reads (sep : α) (r : LineReader α) (rest : List α) (ls : List (List α)) : Prop where
  line : sep ∉ r.line
  text : r.line ++ r.avail ++ rest = joinLines sep ls
  lines : ∀ l ∈ ls, sep ∉ l

omit [DecidableEq α] in
theorem Reads.empty (h : ∀ l ∈ ls, sep ∉ l) : Reads sep .empty (joinLines sep ls) ls where
  line := List.not_mem_nil
  text := rfl
  lines := h

variable {rest : List α}

omit [DecidableEq α] in
theorem Reads.append (h : Reads sep r rest ls) (hms : ∀ m ∈ ms, sep ∉ m) :
    Reads sep r (rest ++ joinLines sep ms) (ls ++ ms) where
  line := h.line
  text := by rw [← List.append_assoc, h.text, joinLines_append]
  lines := fun l hl => (List.mem_append.mp hl).elim (h.lines l) (hms l)

omit [DecidableEq α] in
theorem Reads.fill {chunk : List α} (h : Reads sep r (chunk ++ rest) ls) (ha : r.avail = []) :
    Reads sep { r with avail := chunk } rest ls where
  line := h.line
  text := by simpa [ha] using h.text
  lines := h.lines

theorem scan_some {full : List α} (h : r.scan sep = (some full, r')) :
    ∃ a, full = r.line ++ a ++ [sep] ∧ sep ∉ a ∧ r.avail = a ++ sep :: r'.avail ∧ r'.line = [] := by
  have hsplit := List.takeWhile_append_dropWhile (p := fun c => c ≠ sep) (l := r.avail)
  unfold scan at h
  split at h
  · cases h
  · rename_i c rest hd
    cases h
    have hc : c = sep := by
      have hnot := List.head?_dropWhile_not (fun c => decide (c ≠ sep)) r.avail
      rw [hd] at hnot
      simpa using hnot
    refine ⟨_, rfl, fun hm => ?_, ?_, rfl⟩
    · simpa using List.mem_takeWhile_imp hm
    · rw [hd, hc] at hsplit
      exact hsplit.symm

theorem scan_none (h : r.scan sep = (none, r')) :
    sep ∉ r.avail ∧ r' = { line := r.line ++ r.avail, avail := [] } := by
  unfold scan at h
  split at h
  · rename_i hd
    cases h
    refine ⟨fun hm => ?_, rfl⟩
    have := List.dropWhile_eq_nil_iff.mp hd sep hm
    simp at this
  · cases h

theorem Reads.scan_none (h : Reads sep r rest ls) (hs : r.scan sep = (none, r')) :
    Reads sep r' rest ls := by
  obtain ⟨hav, rfl⟩ := LineReader.scan_none hs
  refine ⟨fun hm => ?_, ?_, h.lines⟩
  · exact (List.mem_append.mp hm).elim h.line hav
  · simpa using h.text

theorem Reads.scan_some {full : List α} (h : Reads sep r rest ls)
    (hs : r.scan sep = (some full, r')) :
    ∃ l tl, ls = l :: tl ∧ full = l ++ [sep] ∧ Reads sep r' rest tl := by
  obtain ⟨a, rfl, ha, hav, hline⟩ := LineReader.scan_some hs
  have htext := h.text
  rw [hav] at htext
  have hla : sep ∉ r.line ++ a := fun hm => (List.mem_append.mp hm).elim h.line ha
  obtain ⟨tl, rfl, htl⟩ := joinLines_eq_line h.lines hla
    (show r.line ++ a ++ sep :: (r'.avail ++ rest) = _ by simpa using htext)
  refine ⟨_, tl, rfl, rfl, ?_, ?_, fun l hl => h.lines l (List.mem_cons_of_mem _ hl)⟩
  · rw [hline]
    exact List.not_mem_nil
  · rw [hline, List.nil_append, htl]

omit [DecidableEq α] in
theorem Reads.eof (h : Reads sep r [] ls) (ha : r.avail = []) : r.line = [] ∧ ls = [] := by
  have htext := h.text
  rw [ha, List.append_nil, List.append_nil] at htext
  obtain rfl := joinLines_eq_nil h.line htext
  exact ⟨htext, rfl⟩

end LineReader

end ShmMpsc
